import SolidityHost.Proofs.Host.Table
import SolidityHost.Proofs.Host.Trace
import SolidityHost.Simulated

/-!
# What a call leaves as it was

While an entry point or a host function runs, anything may be called and allocated. When it ends, in
whatever way, the functions are back in their slots and the same entry points are running. If none
of the code that may run registers, releases or resets, then only the heap and the state of the host
have changed.
-/

set_option autoImplicit false

namespace SolidityHost

namespace Simulated

variable {C σ α : Type}

def IsReset (m : Simulated C σ) (symbol : String) : Prop := m.entries.lookup symbol = some .reset

instance (m : Simulated C σ) (symbol : String) : Decidable (m.IsReset symbol) :=
  match h : m.entries.lookup symbol with
  | some .reset => isTrue h
  | none => isFalse fun h' => nomatch h.symm.trans h'
  | some (.scripted _) => isFalse fun h' => nomatch h.symm.trans h'
  | some (.text _) => isFalse fun h' => nomatch h.symm.trans h'
  | some .allocator => isFalse fun h' => nomatch h.symm.trans h'

/-- Only the heap has changed, and the count of resets if one of them is not forbidden. -/
structure Framed (forbidden : String → Prop) (m m' : Simulated C σ) : Prop where
  entries_eq : m'.entries = m.entries
  running_eq : m'.running = m.running
  table_eq : m'.table = m.table
  registered_eq : m'.registered = m.registered
  released_eq : m'.released = m.released
  resets_eq : (∀ symbol, m.IsReset symbol → forbidden symbol) → m'.resets = m.resets

/-- No code that may run registers or releases a function or calls an entry point of these names:
neither the scripted entry points nor the functions that are ready in the table. -/
structure Avoids (forbidden : String → Prop) (code : C → List Value → HostProgram C σ Value)
    (m : Simulated C σ) : Prop where
  entries : ∀ symbol k, m.entries.lookup symbol = some (.scripted k) →
    ∀ args, (code k args).Confined (Op.Avoids forbidden)
  table : ∀ i f, m.table.idle? i = some f →
    ∀ args, (f.program code args).Confined (Op.Avoids forbidden)

def Frames (code : C → List Value → HostProgram C σ Value)
    (runner : Runner (HostFunction C σ) σ (Simulated C σ)) : Prop :=
  ∀ (forbidden : String → Prop) (m : Simulated C σ), m.Avoids forbidden code →
    ∀ p : HostProgram C σ Value, p.Confined (Op.Avoids forbidden) →
    ∀ s : Simulated C σ × σ, m.Framed forbidden s.1 → m.Framed forbidden (runner p s).2.1

variable {code : C → List Value → HostProgram C σ Value} {forbidden : String → Prop}
  {runner : Runner (HostFunction C σ) σ (Simulated C σ)} {m n : Simulated C σ}

theorem Framed.refl (m : Simulated C σ) : m.Framed forbidden m :=
  ⟨rfl, rfl, rfl, rfl, rfl, fun _ => rfl⟩

theorem Framed.withHeap (h : m.Framed forbidden n) (heap : Heap) :
    m.Framed forbidden { n with heap } := ⟨h.1, h.2, h.3, h.4, h.5, h.6⟩

theorem Framed.allocate (h : m.Framed forbidden n) (size : Nat) :
    m.Framed forbidden (n.allocate size).2 := by
  unfold Simulated.allocate
  split
  · exact h.withHeap _
  · exact h

theorem Framed.writeBytes (h : m.Framed forbidden n) (p : Word) (bytes : List UInt8) :
    m.Framed forbidden (n.writeBytes p bytes).2 := by
  unfold Simulated.writeBytes
  split
  · exact h.withHeap _
  · exact h

theorem Framed.allocateText (h : m.Framed forbidden n) (s : String) :
    m.Framed forbidden (n.allocateText s).2 := by
  have ha := h.allocate (Utf8.width s + 1)
  unfold Simulated.allocateText
  split
  · next e n' hn => simpa [hn] using ha
  · next p n' hn =>
    have hw := Framed.writeBytes (by simpa [hn] using ha) p (Utf8.encode s ++ [0])
    split
    · next e n'' hn' => simpa [hn'] using hw
    · next n'' hn' => simpa [hn'] using hw

theorem Framed.enter (hr : Frames code runner) (ha : m.Avoids forbidden code) {symbol : String}
    {e : Entry C} (he : m.entries.lookup symbol = some e) (ho : ¬ forbidden symbol)
    (args : List Value) {s : Simulated C σ × σ} (hs : m.Framed forbidden s.1) :
    m.Framed forbidden (Simulated.enter code runner e args s).2.1 := by
  cases e with
  | scripted k => exact hr forbidden m ha _ (ha.entries symbol k he args) s hs
  | text t => exact hs.allocateText t
  | allocator =>
    unfold Simulated.enter
    dsimp only
    split
    · split
      · exact hs
      · exact hs.allocate _
    · exact hs
  | reset => exact ⟨hs.1, hs.2, hs.3, hs.4, hs.5, fun h => absurd (h symbol he) ho⟩

theorem Framed.call (hr : Frames code runner) (ha : m.Avoids forbidden code) {symbol : String}
    (ho : ¬ forbidden symbol) (args : List Value) {s : Simulated C σ × σ}
    (hs : m.Framed forbidden s.1) :
    m.Framed forbidden (Simulated.call code runner symbol args s).2.1 := by
  unfold Simulated.call
  split
  · exact hs
  · next e he =>
    rw [hs.entries_eq] at he
    split
    · exact hs
    · have hin : ({ m with running := symbol :: m.running } : Simulated C σ).Framed forbidden
          { s.1 with running := symbol :: s.1.running } :=
        ⟨hs.1, by rw [hs.2], hs.3, hs.4, hs.5, hs.6⟩
      have hout := Framed.enter (m := { m with running := symbol :: m.running }) hr
        ⟨ha.entries, ha.table⟩ he ho args
        (s := ({ s.1 with running := symbol :: s.1.running }, s.2)) hin
      refine ⟨hout.1, ?_, hout.3, hout.4, hout.5, hout.6⟩
      dsimp only
      rw [hout.2]
      exact List.erase_cons_head ..

theorem Framed.invoke (hr : Frames code runner) (ha : m.Avoids forbidden code) (slot : Nat)
    (args : List Value) {s : Simulated C σ × σ} (hs : m.Framed forbidden s.1) :
    m.Framed forbidden (Simulated.invoke code runner slot args s).2.1 := by
  unfold Simulated.invoke HostFunction.invoke
  split
  · exact hs
  · next f hf =>
    replace hf : m.table.idle? slot = some f := hs.table_eq ▸ hf
    have hin : ({ m with table := m.table.checkOut slot f } : Simulated C σ).Framed forbidden
        { s.1 with table := s.1.table.checkOut slot f } :=
      ⟨hs.1, hs.2, by rw [hs.3], hs.4, hs.5, hs.6⟩
    have hout := hr forbidden { m with table := m.table.checkOut slot f }
      ⟨ha.entries, fun i g hg => ha.table i g (Table.idle?_of_checkOut hg)⟩
      (f.program code args) (ha.table slot f hf args)
      ({ s.1 with table := s.1.table.checkOut slot f }, s.2) hin
    refine ⟨hout.1, hout.2, ?_, hout.4, hout.5, hout.6⟩
    dsimp only
    rw [hout.3]
    exact Table.restore_checkOut hf

theorem Framed.perform (hr : Frames code runner) (ha : m.Avoids forbidden code)
    {o : Op (HostFunction C σ)} (ho : o.Avoids forbidden) {s : Simulated C σ × σ}
    (hs : m.Framed forbidden s.1) :
    m.Framed forbidden (Simulated.perform code runner o s).2.1 := by
  cases o with
  | exports symbol => exact hs
  | call symbol args => exact hs.call hr ha ho args
  | invoke slot args => exact hs.invoke hr ha slot args
  | register f => exact ho.elim
  | release slot => exact ho.elim
  | allocate size => exact hs.allocate size
  | free address => exact hs
  | readText address => exact hs
  | writeBytes address bytes => exact hs.writeBytes address bytes
  | readWord address => exact hs
  | writeWord address value => exact hs.writeBytes address _

/-- However deeply calls are nested, the programs that they run leave a frame. -/
theorem nested_eq_perform (code : C → List Value → HostProgram C σ Value) (depth : Nat) :
    ∃ runner, Meaning.nested (Simulated.perform code) depth = Simulated.perform code runner ∧
      Frames code runner := by
  induction depth with
  | zero => exact ⟨_, rfl, fun _ _ _ _ _ _ hs => hs⟩
  | succ depth ih =>
    obtain ⟨runner, heq, hr⟩ := ih
    refine ⟨_, rfl, fun forbidden m ha p hp s hs => ?_⟩
    rw [heq]
    exact hp.run (P := m.Framed forbidden) (fun o s ho h => h.perform hr ha ho) hs

end Simulated

end SolidityHost
