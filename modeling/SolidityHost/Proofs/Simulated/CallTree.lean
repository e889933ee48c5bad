import SolidityHost.Proofs.Host.Log
import SolidityHost.Proofs.Simulated.Frame

/-!
# Call trees of a simulated module

While the code of an entry point or of a function in a slot runs, it may call the module again, and
so may the code that it calls. The moments of a call tree are its operations, each with the
activations around it. Along the whole tree an entry point is refused exactly while its own code is
active, and an active slot can neither be called nor released; behind the tree nothing is active.
-/

set_option autoImplicit false

namespace SolidityHost.Simulated

variable {C σ : Type} {code : C → List Value → HostProgram C σ Value}
  {runner : Runner (HostFunction C σ) σ (Simulated C σ)}
  {m n k : Simulated C σ}

inductive Activation where
  | entry (symbol : String)
  | slot (index : Nat)
  deriving DecidableEq, Repr

def Activation.symbol? : Activation → Option String
  | .entry symbol => some symbol
  | .slot _ => none

def begin (m : Simulated C σ) (symbol : String) : Simulated C σ :=
  { m with running := symbol :: m.running }

def finish (m : Simulated C σ) (symbol : String) : Simulated C σ :=
  { m with running := m.running.erase symbol }

def checkOut (m : Simulated C σ) (slot : Nat) (f : HostFunction C σ) : Simulated C σ :=
  { m with table := m.table.checkOut slot f }

def restore (m : Simulated C σ) (slot : Nat) (f : HostFunction C σ) : Simulated C σ :=
  { m with table := m.table.restore slot f }

def opened? (code : C → List Value → HostProgram C σ Value) (o : Op (HostFunction C σ))
    (s : Simulated C σ × σ) :
    Option (Activation × HostProgram C σ Value × (Simulated C σ × σ)) :=
  -- the activation, its program, and the state that it starts in
  match o with
  | .call symbol args =>
    match s.1.entries.lookup symbol with
    | some (.scripted c) =>
      if symbol ∈ s.1.running then none
      else some (.entry symbol, code c args, (s.1.begin symbol, s.2))
    | _ => none
  | .invoke slot args =>
    match s.1.table.idle? slot with
    | some f => some (.slot slot, f.program code args, (s.1.checkOut slot f, s.2))
    | none => none
  | _ => none

/-- An operation of a call tree, with the activations around it, the innermost first. -/
structure Moment (C σ : Type) where
  stack : List Activation
  op : Op (HostFunction C σ)
  before : Simulated C σ × σ
  result : Outcome op.Answer × (Simulated C σ × σ)

def Moment.within (x : Moment C σ) (outer : List Activation) : Moment C σ :=
  { x with stack := x.stack ++ outer }

def observe (code : C → List Value → HostProgram C σ Value)
    (runner : Runner (HostFunction C σ) σ (Simulated C σ))
    (logger : Logger (HostFunction C σ) σ (Simulated C σ) (Moment C σ)) :
    Observer (HostFunction C σ) σ (Simulated C σ) (Moment C σ) := fun o s =>
  ⟨[], o, s, perform code runner o s⟩ ::
    match opened? code o s with
    | some (a, p, t) => (logger p t).map (·.within [a])
    | none => []

def moments (code : C → List Value → HostProgram C σ Value) (depth : Nat) :
    Observer (HostFunction C σ) σ (Simulated C σ) (Moment C σ) :=
  Observer.nested (perform code) (observe code) depth

def Refuses (code : C → List Value → HostProgram C σ Value) (symbol : String) (args : List Value)
    (s : Simulated C σ × σ) : Prop :=
  -- whatever programs do, so no code of the entry point runs
  ∀ runner, perform code runner (.call symbol args) s = (internal (.recursiveCall symbol), s)

def HasExport (m : Simulated C σ) (symbol : String) : Prop := (m.entries.lookup symbol).isSome

/-- What the activations around an operation decide. -/
def Moment.Disciplined (code : C → List Value → HostProgram C σ Value) : Moment C σ → Prop
  | ⟨stack, .call symbol args, s, result⟩ =>
    s.1.HasExport symbol →
      (Refuses code symbol args s ↔ .entry symbol ∈ stack) ∧
        (.entry symbol ∈ stack → result = (internal (.recursiveCall symbol), s)) ∧
          ∀ c, s.1.entries.lookup symbol = some (.scripted c) →
            ((opened? code (.call symbol args) s).isSome ↔ .entry symbol ∉ stack)
  | ⟨stack, .invoke slot _, s, result⟩ =>
    .slot slot ∈ stack → result = (.error (.error (.slotNotFound slot)), s)
  | ⟨stack, .release slot, s, result⟩ =>
    .slot slot ∈ stack → result = (.error (.error (.slotNotFound slot)), s)
  | _ => True

structure Quiet (m : Simulated C σ) : Prop where
  running_eq : m.running = []
  running?_eq : ∀ i, m.table.running? i = none

/-- The entry points that run and the slots that functions run out of are those that are active. -/
structure Balanced (stack : List Activation) (m : Simulated C σ) : Prop where
  running_eq : m.running = stack.filterMap Activation.symbol?
  slots : ∀ i, (m.table.running? i).isSome ↔ .slot i ∈ stack

theorem balanced_nil_iff : m.Balanced [] ↔ m.Quiet := by
  constructor
  · intro h
    refine ⟨h.running_eq, fun i => ?_⟩
    have hi := h.slots i
    simp only [List.not_mem_nil, iff_false, Bool.not_eq_true, Option.isSome_eq_false_iff,
      Option.isNone_iff_eq_none] at hi
    exact hi
  · intro h
    exact ⟨h.running_eq, fun i => by simp [h.running?_eq i]⟩

namespace Balanced

variable {stack : List Activation}

theorem mem_running_iff (h : m.Balanced stack) (symbol : String) :
    symbol ∈ m.running ↔ .entry symbol ∈ stack := by
  rw [h.running_eq, List.mem_filterMap]
  constructor
  · rintro ⟨a, ha, heq⟩
    cases a with
    | entry s =>
      obtain rfl : s = symbol := by simpa [Activation.symbol?] using heq
      exact ha
    | slot i => simp [Activation.symbol?] at heq
  · exact fun ha => ⟨_, ha, rfl⟩

theorem idle?_eq_none (h : m.Balanced stack) {i : Nat} (hi : .slot i ∈ stack) :
    m.table.idle? i = none := by
  cases hf : m.table.idle? i with
  | none => rfl
  | some f =>
    have hrun := (h.slots i).2 hi
    simp [Table.running?_of_idle? hf] at hrun

theorem slot_notMem (h : m.Balanced stack) {i : Nat} {f : HostFunction C σ}
    (hf : m.table.idle? i = some f) : .slot i ∉ stack := by
  intro hi
  simp [h.idle?_eq_none hi] at hf

theorem congr (h : m.Balanced stack) (hr : n.running = m.running)
    (ht : ∀ i, n.table.running? i = m.table.running? i) : n.Balanced stack :=
  ⟨hr.trans h.running_eq, fun i => by rw [ht]; exact h.slots i⟩

theorem begin (h : m.Balanced stack) (symbol : String) :
    (m.begin symbol).Balanced (.entry symbol :: stack) where
  running_eq := by simp [Simulated.begin, Activation.symbol?, h.running_eq]
  slots := by
    intro i
    have hi := h.slots i
    simpa [Simulated.begin] using hi

theorem finish {symbol : String} (h : m.Balanced (.entry symbol :: stack)) :
    (m.finish symbol).Balanced stack where
  running_eq := by simp [Simulated.finish, h.running_eq, Activation.symbol?]
  slots := by
    intro i
    have hi := h.slots i
    simpa [Simulated.finish] using hi

theorem checkOut (h : m.Balanced stack) {i : Nat} {f : HostFunction C σ}
    (hf : m.table.idle? i = some f) : (m.checkOut i f).Balanced (.slot i :: stack) where
  running_eq := h.running_eq
  slots := by
    intro j
    rw [Simulated.checkOut, Table.running?_checkOut _ _ _ (Table.lt_of_idle? hf)]
    by_cases hj : j = i
    · simp [hj]
    · simp [hj, h.slots j]

theorem restore {i : Nat} (h : m.Balanced (.slot i :: stack)) (hi : .slot i ∉ stack)
    (f : HostFunction C σ) : (m.restore i f).Balanced stack where
  running_eq := h.running_eq
  slots := by
    intro j
    rw [Simulated.restore, Table.running?_restore]
    by_cases hj : j = i
    · simp [hj, hi]
    · have hslots := h.slots j
      simpa [hj] using hslots

end Balanced

section

variable {symbol : String} {e : Entry C} {s : Simulated C σ × σ}

theorem opened?_of_running (args : List Value) (hrun : symbol ∈ s.1.running) :
    opened? code (.call symbol args) s = none := by
  simp only [opened?, if_pos hrun]
  split <;> rfl

theorem opened?_scripted {c : C} (he : s.1.entries.lookup symbol = some (.scripted c))
    (hrun : symbol ∉ s.1.running) (args : List Value) :
    opened? code (.call symbol args) s =
      some (.entry symbol, code c args, (s.1.begin symbol, s.2)) := by
  simp [opened?, he, hrun]

theorem state_of_running (he : s.1.entries.lookup symbol = some e) (hrun : symbol ∈ s.1.running)
    (args : List Value) : (perform code runner (.call symbol args) s).2 = s := by
  simp [perform, call, he, hrun]

theorem state_call (he : s.1.entries.lookup symbol = some e) (hrun : symbol ∉ s.1.running)
    (args : List Value) :
    (perform code runner (.call symbol args) s).2.1 =
      (enter code runner e args (s.1.begin symbol, s.2)).2.1.finish symbol := by
  simp [perform, call, he, hrun, begin, finish]

variable {slot : Nat} {f : HostFunction C σ}

theorem perform_invoke (hf : s.1.table.idle? slot = some f) (args : List Value) :
    perform code runner (.invoke slot args) s =
      match runner (f.program code args) (s.1.checkOut slot f, s.2) with
      | (r, (m, w)) => (r, (m.restore slot f, w)) := by
  rw [perform, invoke, HostFunction.invoke, hf]
  rfl

theorem state_invoke (hf : s.1.table.idle? slot = some f) (args : List Value) :
    (perform code runner (.invoke slot args) s).2.1 =
      (runner (f.program code args) (s.1.checkOut slot f, s.2)).2.1.restore slot f := by
  rw [perform_invoke hf]

end

theorem Framed.dropResets {forbidden : String → Prop} (h : m.Framed forbidden n) :
    m.Framed forbidden { n with resets := m.resets } := ⟨h.1, h.2, h.3, h.4, h.5, fun _ => rfl⟩

theorem framed_enter {e : Entry C} (hc : ∀ c, e ≠ .scripted c) (args : List Value)
    (s : Simulated C σ × σ) : s.1.Framed (fun _ => False)
      { (enter code runner e args s).2.1 with resets := s.1.resets } := by
  have hs : s.1.Framed (fun _ => False) s.1 := .refl s.1
  cases e with
  | scripted c => exact absurd rfl (hc c)
  | text t =>
    unfold enter
    dsimp only
    exact (hs.allocateText t).dropResets
  | allocator =>
    unfold enter
    dsimp only
    split
    · split
      · exact hs.dropResets
      · next size _ => exact (hs.allocate size.toNat).dropResets
    · exact hs.dropResets
  | reset => exact ⟨rfl, rfl, rfl, rfl, rfl, fun _ => rfl⟩

section

variable {o : Op (HostFunction C σ)} {s t : Simulated C σ × σ}

inductive Opens (code : C → List Value → HostProgram C σ Value) (s : Simulated C σ × σ) :
    Op (HostFunction C σ) → Activation → HostProgram C σ Value → Simulated C σ × σ → Prop where
  | call {symbol : String} {c : C} (he : s.1.entries.lookup symbol = some (.scripted c))
      (hrun : symbol ∉ s.1.running) (args : List Value) :
    Opens code s (.call symbol args) (.entry symbol) (code c args) (s.1.begin symbol, s.2)
  | invoke {slot : Nat} {f : HostFunction C σ} (hf : s.1.table.idle? slot = some f)
      (args : List Value) :
    Opens code s (.invoke slot args) (.slot slot) (f.program code args) (s.1.checkOut slot f, s.2)

theorem opens_of_opened? {a : Activation} {p : HostProgram C σ Value}
    (h : opened? code o s = some (a, p, t)) : Opens code s o a p t := by
  cases o with
  | call symbol args =>
    unfold opened? at h
    dsimp only at h
    split at h
    · next c he =>
      split at h
      · contradiction
      · next hrun =>
        obtain ⟨rfl, rfl, rfl⟩ : _ ∧ _ ∧ _ := by simpa using h
        exact .call he hrun args
    · contradiction
  | invoke slot args =>
    unfold opened? at h
    dsimp only at h
    split at h
    · next f hf =>
      obtain ⟨rfl, rfl, rfl⟩ : _ ∧ _ ∧ _ := by simpa using h
      exact .invoke hf args
    · contradiction
  | _ => contradiction

/-- An operation that opens no code registers a function, releases one, or changes at most the heap
and the count of resets. -/
theorem state_of_opened?_eq_none (runner : Runner (HostFunction C σ) σ (Simulated C σ))
    (h : opened? code o s = none) :
    s.1.Framed (fun _ => False) { (perform code runner o s).2.1 with resets := s.1.resets } ∨
    (∃ f, o = .register f ∧ (perform code runner o s).2.1 =
      { s.1 with table := s.1.table.add f, registered := s.1.registered + 1 }) ∨
    ∃ slot f, o = .release slot ∧ s.1.table.idle? slot = some f ∧
      (perform code runner o s).2.1 =
        { s.1 with table := s.1.table.clear slot, released := s.1.released + 1 } := by
  have hs : s.1.Framed (fun _ => False) s.1 := .refl s.1
  cases o with
  | call symbol args =>
    refine .inl ?_
    cases he : s.1.entries.lookup symbol with
    | none =>
      rw [perform, call, he]
      exact hs
    | some e =>
      by_cases hrun : symbol ∈ s.1.running
      · rw [state_of_running he hrun args]
        exact hs
      · have hbuilt : ∀ c, e ≠ .scripted c := by
          rintro c rfl
          rw [opened?_scripted he hrun args] at h
          contradiction
        have hin := @framed_enter _ _ code runner e hbuilt args (s.1.begin symbol, s.2)
        rw [state_call he hrun args]
        refine ⟨hin.1, ?_, hin.3, hin.4, hin.5, fun _ => rfl⟩
        exact (congrArg (List.erase · symbol) hin.2).trans (List.erase_cons_head ..)
  | invoke slot args =>
    cases hf : s.1.table.idle? slot with
    | none =>
      rw [perform, invoke, HostFunction.invoke, hf]
      exact .inl hs
    | some f => simp [opened?, hf] at h
  | register f =>
    have hreg : (perform code runner (.register f) s).2.1 = (s.1.register f).2 := rfl
    rw [hreg, Simulated.register]
    split
    · exact .inr (.inl ⟨f, rfl, rfl⟩)
    · exact .inl hs
  | release slot =>
    have hrel : (perform code runner (.release slot) s).2.1 = (s.1.release slot).2 := rfl
    rw [hrel, Simulated.release]
    split
    · next f hf => exact .inr (.inr ⟨slot, f, rfl, hf, rfl⟩)
    · exact .inl hs
  | allocate size => exact .inl (hs.allocate size).dropResets
  | writeBytes p bytes => exact .inl (hs.writeBytes p bytes).dropResets
  | writeWord p value => exact .inl (hs.writeBytes p _).dropResets
  | _ => exact .inl hs

end

theorem allocate_ne_internal (m : Simulated C σ) (size : Nat) (fault : InternalFault) :
    (m.allocate size).1 ≠ internal fault := by
  unfold Simulated.allocate
  split <;> simp [internal]

theorem writeBytes_ne_internal (m : Simulated C σ) (p : Word) (bytes : List UInt8)
    (fault : InternalFault) : (m.writeBytes p bytes).1 ≠ internal fault := by
  unfold Simulated.writeBytes
  split <;> simp [internal, refuse]

theorem allocateText_ne_internal (m : Simulated C σ) (t : String) (fault : InternalFault) :
    (m.allocateText t).1 ≠ internal fault := by
  have ha := m.allocate_ne_internal (Utf8.width t + 1) fault
  unfold Simulated.allocateText
  split
  · next e n hn =>
    rw [hn] at ha
    exact fun h => ha (congrArg Except.error (Except.error.inj h))
  · next p n hn =>
    have hw := n.writeBytes_ne_internal p (Utf8.encode t ++ [0]) fault
    split
    · next e n' hn' =>
      rw [hn'] at hw
      exact fun h => hw (congrArg Except.error (Except.error.inj h))
    · simp [internal]

theorem ne_internal_of_map {r : Outcome Word} {fault : InternalFault} (h : r ≠ internal fault) :
    r.map Value.pointer ≠ internal fault := by
  cases r with
  | ok p => simp [Except.map, internal]
  | error e => exact fun heq => h (congrArg Except.error (Except.error.inj heq))

/-- Nothing that is built in ends like a recursive call, nor does code that just returns. -/
theorem enter_ne_internal (e : Entry C) (args : List Value) (s : Simulated C σ × σ)
    (fault : InternalFault) :
    (enter code (fun _ s => (.ok .void, s)) e args s).1 ≠ internal fault := by
  cases e with
  | scripted c => simp [enter, internal]
  | text t =>
    have ht := s.1.allocateText_ne_internal t fault
    rw [enter]
    revert ht
    rcases s.1.allocateText t with ⟨r, n⟩
    exact ne_internal_of_map
  | allocator =>
    unfold enter
    dsimp only
    split
    · next v =>
      cases v with
      | slot i => simp [Value.word, internal, refuse]
      | bool b => cases b <;> exact ne_internal_of_map (s.1.allocate_ne_internal _ fault)
      | _ => exact ne_internal_of_map (s.1.allocate_ne_internal _ fault)
    · simp [internal, refuse]
  | reset => simp [enter, internal]

theorem refuses_iff {symbol : String} (args : List Value) {s : Simulated C σ × σ}
    (h : s.1.HasExport symbol) : Refuses code symbol args s ↔ symbol ∈ s.1.running := by
  obtain ⟨e, he⟩ := Option.isSome_iff_exists.1 h
  constructor
  · intro hr
    by_contra hn
    have hcall := congrArg Prod.fst (hr fun _ s => (.ok .void, s))
    rw [perform, call, he] at hcall
    simp only [hn, if_false] at hcall
    exact enter_ne_internal e args _ _ hcall
  · intro hmem runner
    rw [perform, call, he]
    simp only [hmem, if_true]

theorem Balanced.disciplined {stack : List Activation} {s : Simulated C σ × σ}
    (h : s.1.Balanced stack) (o : Op (HostFunction C σ)) :
    (⟨stack, o, s, perform code runner o s⟩ : Moment C σ).Disciplined code := by
  cases o with
  | call symbol args =>
    intro he
    have hr : Refuses code symbol args s ↔ .entry symbol ∈ stack :=
      (refuses_iff args he).trans (h.mem_running_iff symbol)
    refine ⟨hr, fun hmem => hr.2 hmem runner, fun c hc => ?_⟩
    rw [← h.mem_running_iff symbol]
    by_cases hrun : symbol ∈ s.1.running
    · simp [opened?_of_running args hrun, hrun]
    · simp [opened?_scripted hc hrun args, hrun]
  | invoke slot args =>
    intro hmem
    rw [perform, invoke, HostFunction.invoke, h.idle?_eq_none hmem]
  | release slot =>
    intro hmem
    rw [perform, Simulated.release, h.idle?_eq_none hmem]
  | _ => trivial

structure Nests (code : C → List Value → HostProgram C σ Value) (m : Simulated C σ)
    (tree : List (Moment C σ)) (n : Simulated C σ) : Prop where
  entries_eq : n.entries = m.entries
  keeps : m.table.Keeps n.table
  balanced : ∀ stack, m.Balanced stack → n.Balanced stack
  disciplined : ∀ stack, m.Balanced stack → ∀ x ∈ tree, (x.within stack).Disciplined code

namespace Nests

theorem forget {tree : List (Moment C σ)} (h : Nests code m tree n) : Nests code m [] n where
  entries_eq := h.entries_eq
  keeps := h.keeps
  balanced := h.balanced
  disciplined _ _ _ hx := absurd hx List.not_mem_nil

theorem sequential (code : C → List Value → HostProgram C σ Value) :
    Sequential (Nests code : Simulated C σ → List (Moment C σ) → Simulated C σ → Prop) where
  nil m := ⟨rfl, .refl _, fun _ h => h, fun _ _ _ hx => nomatch hx⟩
  append := by
    intro m n k l l' h h'
    refine ⟨h'.entries_eq.trans h.entries_eq, h.keeps.trans h'.keeps,
      fun stack hb => h'.balanced stack (h.balanced stack hb), fun stack hb x hx => ?_⟩
    rcases List.mem_append.1 hx with hx | hx
    · exact h.disciplined stack hb x hx
    · exact h'.disciplined stack (h.balanced stack hb) x hx

theorem single {o : Op (HostFunction C σ)} {s : Simulated C σ × σ}
    (he : (perform code runner o s).2.1.entries = s.1.entries)
    (hr : (perform code runner o s).2.1.running = s.1.running)
    (hk : s.1.table.Keeps (perform code runner o s).2.1.table)
    (ht : ∀ i, (perform code runner o s).2.1.table.running? i = s.1.table.running? i) :
    Nests code s.1 [⟨[], o, s, perform code runner o s⟩] (perform code runner o s).2.1 where
  entries_eq := he
  keeps := hk
  balanced stack hb := hb.congr hr ht
  disciplined := by
    intro stack hb x hx
    obtain rfl := List.mem_singleton.1 hx
    exact hb.disciplined o

theorem of_framed {o : Op (HostFunction C σ)} {s : Simulated C σ × σ}
    (h : s.1.Framed (fun _ => False)
      { (perform code runner o s).2.1 with resets := s.1.resets }) :
    Nests code s.1 [⟨[], o, s, perform code runner o s⟩] (perform code runner o s).2.1 := by
  have ht : (perform code runner o s).2.1.table = s.1.table := h.table_eq
  exact .single h.entries_eq h.running_eq (by rw [ht]; exact .refl _) fun i => by rw [ht]

theorem around {a : Activation} {o : Op (HostFunction C σ)} {s : Simulated C σ × σ}
    {tree : List (Moment C σ)} (h : Nests code m tree n)
    (hin : ∀ stack, s.1.Balanced stack → m.Balanced (a :: stack))
    (hout : ∀ stack, s.1.Balanced stack → n.Balanced (a :: stack) →
      (perform code runner o s).2.1.Balanced stack)
    (he : (perform code runner o s).2.1.entries = s.1.entries)
    (hk : s.1.table.Keeps (perform code runner o s).2.1.table) :
    Nests code s.1 (⟨[], o, s, perform code runner o s⟩ :: tree.map (·.within [a]))
      (perform code runner o s).2.1 where
  entries_eq := he
  keeps := hk
  balanced stack hb := hout stack hb (h.balanced _ (hin stack hb))
  disciplined := by
    intro stack hb x hx
    rcases List.mem_cons.1 hx with rfl | hx
    · exact hb.disciplined o
    · obtain ⟨y, hy, rfl⟩ := List.mem_map.1 hx
      have hd := h.disciplined (a :: stack) (hin stack hb) y hy
      simpa [Moment.within] using hd

theorem perform {logger : Logger (HostFunction C σ) σ (Simulated C σ) (Moment C σ)}
    (hl : ∀ p s, Nests code s.1 (logger p s) (runner p s).2.1) (o : Op (HostFunction C σ))
    (s : Simulated C σ × σ) :
    Nests code s.1 (observe code runner logger o s) (perform code runner o s).2.1 := by
  unfold observe
  cases ho : opened? code o s with
  | none =>
    obtain h | ⟨f, -, h⟩ | ⟨slot, f, -, hf, h⟩ := state_of_opened?_eq_none runner ho
    · exact of_framed h
    · apply single <;> rw [h]
      · exact .add _ f
      · exact fun i => Table.running?_add _ f i
    · apply single <;> rw [h]
      · exact .clear hf
      · intro i
        refine (Table.running?_clear _ slot i).trans ?_
        split
        · next hi => rw [hi, Table.running?_of_idle? hf]
        · rfl
  | some entered =>
    obtain ⟨a, p, t⟩ := entered
    have hin := hl p t
    cases opens_of_opened? ho with
    | @call symbol c he hrun args =>
      apply hin.around (fun stack hb => hb.begin symbol) <;> rw [state_call he hrun args]
      · exact fun stack _ hn => hn.finish
      · exact hin.entries_eq
      · exact hin.keeps
    | @invoke slot f hf args =>
      apply hin.around (fun stack hb => hb.checkOut hf) <;> rw [state_invoke hf args]
      · exact fun stack hb hn => hn.restore (hb.slot_notMem hf) f
      · exact hin.entries_eq
      · exact hin.keeps.restore hf

end Nests

def reentrantCode : Bool → List Value → HostProgram Bool Unit Value
  | false, _ => do
    let _ ← (Program.perform (.call "compile" [])).attempt
    Program.perform (.invoke 0 [.void, .void, .void])
  | true, _ => do
    Program.perform (.release 0)
    pure .void

def reentrant : Simulated Bool Unit :=
  { (ofEntries [("compile", .scripted false)] : Simulated Bool Unit) with
    table := [.idle (.custom .importOnly true)] }

theorem quiet_reentrant : reentrant.Quiet where
  running_eq := rfl
  running?_eq i := by
    cases i <;> rfl

end SolidityHost.Simulated
