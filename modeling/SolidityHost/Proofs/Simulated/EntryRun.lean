import SolidityHost.Proofs.Callback.EntryRun
import SolidityHost.Proofs.Host.Bytes
import SolidityHost.Proofs.Simulated.Frame

/-!
# Entry runs on a simulated module

The phases of an entry run, one by one: the input goes into the heap as a whole or not at all; a
slot that could be registered is always released; a built-in reset gives up every allocation.
-/

set_option autoImplicit false

namespace SolidityHost.Simulated

open Program

variable {C σ α : Type} {code : C → List Value → HostProgram C σ Value}
  {runner : Runner (HostFunction C σ) σ (Simulated C σ)} {forbidden : String → Prop}
  {m n : Simulated C σ}

section

variable (s : Simulated C σ × σ)

theorem run_allocate (size : Nat) :
    (Program.perform (.allocate size) : HostProgram C σ Word).run (perform code runner) s =
      ((s.1.allocate size).1, ((s.1.allocate size).2, s.2)) := rfl

theorem run_writeBytes (p : Word) (bytes : List UInt8) :
    (Program.perform (.writeBytes p bytes) : HostProgram C σ Unit).run (perform code runner) s =
      ((s.1.writeBytes p bytes).1, ((s.1.writeBytes p bytes).2, s.2)) := rfl

theorem run_register (f : HostFunction C σ) :
    (Program.perform (.register f) : HostProgram C σ Nat).run (perform code runner) s =
      ((s.1.register f).1, ((s.1.register f).2, s.2)) := rfl

theorem run_release (slot : Nat) :
    (Program.perform (.release slot) : HostProgram C σ Unit).run (perform code runner) s =
      ((s.1.release slot).1, ((s.1.release slot).2, s.2)) := rfl

theorem run_call (symbol : String) (args : List Value) :
    (Program.perform (.call symbol args) : HostProgram C σ Value).run (perform code runner) s =
      call code runner symbol args s := rfl

end

theorem run_allocateText_of_room (code : C → List Value → HostProgram C σ Value)
    (runner : Runner (HostFunction C σ) σ (Simulated C σ)) {s : Simulated C σ × σ} {text : String}
    (hr : s.1.heap.Room (Utf8.width text + 1)) :
    ∃ buffer heap, (Program.allocateText text : HostProgram C σ Word).run (perform code runner) s =
      (.ok buffer, ({ s.1 with heap }, s.2)) ∧ s.1.heap.Placed text buffer heap := by
  obtain ⟨p, h₀, h₁, h₂, ha, hw, hz, hplaced⟩ := Heap.exists_placed hr
  refine ⟨p, h₂, ?_, hplaced⟩
  rw [Program.allocateText, bind_eq, run_bind, run_allocate, Simulated.allocate, ha]
  dsimp only
  rw [bind_eq, run_bind, run_writeBytes, Simulated.writeBytes, hw]
  dsimp only
  rw [bind_eq, run_bind, run_writeBytes, Simulated.writeBytes, hz]
  rfl

theorem run_allocateText_of_noRoom {s : Simulated C σ × σ} {text : String}
    (hr : ¬ s.1.heap.Room (Utf8.width text + 1)) :
    (Program.allocateText text : HostProgram C σ Word).run (perform code runner) s =
      (.error (.abort .addressSpaceExhausted), s) := by
  rw [Program.allocateText, bind_eq, run_bind, run_allocate, Simulated.allocate,
    Heap.allocate?_eq_none hr]

theorem run_allocateText (code : C → List Value → HostProgram C σ Value)
    (runner : Runner (HostFunction C σ) σ (Simulated C σ)) (s : Simulated C σ × σ) (text : String) :
    (s.1.heap.allocate? (Utf8.width text + 1) = none ∧
      (Program.allocateText text : HostProgram C σ Word).run (perform code runner) s =
        (.error (.abort .addressSpaceExhausted), s)) ∨
    ∃ buffer heap, (Program.allocateText text : HostProgram C σ Word).run
      (perform code runner) s = (.ok buffer, ({ s.1 with heap }, s.2)) := by
  by_cases hr : s.1.heap.Room (Utf8.width text + 1)
  · obtain ⟨buffer, heap, hrun, -⟩ := run_allocateText_of_room code runner hr
    exact .inr ⟨buffer, heap, hrun⟩
  · exact .inl ⟨Heap.allocate?_eq_none hr, run_allocateText_of_noRoom hr⟩

theorem Framed.run (hr : Frames code runner) (ha : m.Avoids forbidden code)
    {p : HostProgram C σ α} (hp : p.Confined (Op.Avoids forbidden)) {s : Simulated C σ × σ}
    (hs : m.Framed forbidden s.1) :
    m.Framed forbidden (p.run (Simulated.perform code runner) s).2.1 :=
  hp.run (P := m.Framed forbidden) (fun _ _ ho h => h.perform hr ha ho) hs

def withSpentSlots (m : Simulated C σ) (count : Nat) : Simulated C σ :=
  { m with
    table := m.table ++ List.replicate count .empty
    registered := m.registered + count
    released := m.released + count }

theorem withSpentSlots_zero (m : Simulated C σ) : m.withSpentSlots 0 = m := by
  simp [withSpentSlots]

def withFunction (m : Simulated C σ) (f : HostFunction C σ) : Simulated C σ :=
  { m with table := m.table.add f, registered := m.registered + 1 }

theorem withSlot_of_full {s : Simulated C σ × σ} (h : Table.capacity ≤ s.1.table.length)
    (f : HostFunction C σ) (body : Nat → HostProgram C σ α) :
    (EntryRun.withSlot f body).run (perform code runner) s = (refuse .tableFull, s) ∧
      (EntryRun.withSlot f body).trace (perform code runner) s = [(.register f, s)] := by
  have hfull : (Program.perform (.register f) : HostProgram C σ Nat).run (perform code runner) s =
      (refuse .tableFull, s) := by
    rw [run_register, Simulated.register, if_neg (Nat.not_lt.2 h)]
  constructor
  · rw [EntryRun.withSlot, bind_eq, run_bind, hfull]
    rfl
  · rw [EntryRun.withSlot, bind_eq, trace_bind, hfull]
    rfl

theorem run_register_of_lt {s : Simulated C σ × σ} (h : s.1.table.length < Table.capacity)
    (f : HostFunction C σ) :
    (Program.perform (.register f) : HostProgram C σ Nat).run (perform code runner) s =
      (.ok s.1.table.length, (s.1.withFunction f, s.2)) := by
  rw [run_register, Simulated.register, if_pos h]
  rfl

theorem state_withSlot {s : Simulated C σ × σ} (h : s.1.table.length < Table.capacity)
    (f : HostFunction C σ) (body : Nat → HostProgram C σ α) {m : Simulated C σ} {w : σ}
    (hb : ((body s.1.table.length).run (perform code runner) (s.1.withFunction f, s.2)).2 = (m, w))
    (ht : m.table = s.1.table.add f) :
    ((EntryRun.withSlot f body).run (perform code runner) s).2 =
      ({ m with table := s.1.table ++ [.empty], released := m.released + 1 }, w) := by
  have hrel : (Program.perform (.release s.1.table.length) : HostProgram C σ Unit).run
      (perform code runner) (m, w) =
        (.ok (), ({ m with table := s.1.table ++ [.empty], released := m.released + 1 }, w)) := by
    have hidle : m.table.idle? s.1.table.length = some f := by
      simp [ht, Table.idle?_eq_some_iff, Table.add]
    have hclear : m.table.clear s.1.table.length = s.1.table ++ [.empty] := by
      simp [ht, Table.clear, Table.add]
    rw [run_release, Simulated.release, hidle, hclear]
  rw [EntryRun.withSlot, bind_eq, run_bind, run_register_of_lt h]
  dsimp only
  rw [bind_eq, run_bind, run_attempt, hb]
  dsimp only
  cases ((body s.1.table.length).run (perform code runner) (s.1.withFunction f, s.2)).1 with
  | ok a =>
    dsimp only
    rw [bind_eq, run_bind, hrel]
    rfl
  | error failure =>
    dsimp only
    rw [bind_eq, run_bind, run_attempt, hrel]
    rfl

theorem trace_withSlot {s : Simulated C σ × σ} (h : s.1.table.length < Table.capacity)
    (f : HostFunction C σ) (body : Nat → HostProgram C σ α) :
    ∀ e ∈ (body s.1.table.length).trace (perform code runner) (s.1.withFunction f, s.2),
      e ∈ (EntryRun.withSlot f body).trace (perform code runner) s := by
  intro e he
  rw [EntryRun.withSlot, bind_eq, trace_bind, run_register_of_lt h]
  dsimp only
  rw [bind_eq, trace_bind, trace_attempt]
  exact List.mem_append_right _ (List.mem_append_left _ he)

def slotCount : Option (CallbackService σ) → Nat
  | none => 0
  | some _ => 1

theorem Avoids.withFunction (ha : m.Avoids forbidden code) {f : HostFunction C σ}
    (hf : ∀ args, (f.program code args).Confined (Op.Avoids forbidden)) :
    (m.withFunction f).Avoids forbidden code where
  entries := ha.entries
  table := by
    intro i g hg
    rw [Table.idle?_eq_some_iff] at hg
    by_cases hi : i < m.table.length
    · apply ha.table i g
      rw [Table.idle?_eq_some_iff, ← hg]
      exact (List.getElem?_append_left hi).symm
    · have hlast : [TableSlot.idle f][i - m.table.length]? = some (.idle g) := by
        rw [← hg]
        exact (List.getElem?_append_right (Nat.not_lt.1 hi)).symm
      obtain ⟨_, hfg⟩ := List.getElem?_eq_some_iff.1 hlast
      rw [List.getElem_singleton] at hfg
      obtain rfl := TableSlot.idle.inj hfg
      exact hf

theorem Framed.body (hr : Frames code runner) (ha : m.Avoids forbidden code) {c : Primitives}
    {symbol : String} (ho : ¬ forbidden symbol) (args : List Value)
    {service : Option (CallbackService σ)} (hc : service.isSome → c.AllocatorAvoids forbidden)
    (hroom : service.isSome → m.table.length < Table.capacity) {s : Simulated C σ × σ}
    (hs : m.Framed forbidden s.1) :
    (m.withSpentSlots (slotCount service)).Framed forbidden
      ((EntryRun.body c symbol args service).run (Simulated.perform code runner) s).2.1 := by
  have hcall : ∀ args, (EntryRun.callText symbol args : HostProgram C σ String).Confined
      (Op.Avoids forbidden) := fun args => EntryRun.callText_confined ho fun _ => trivial
  cases service with
  | none =>
    rw [slotCount, withSpentSlots_zero]
    exact hs.run hr ha (hcall args)
  | some service =>
    have hf := HostFunction.callbacks_confined (hc rfl) service.protocol service.handlers code
    have hin : (m.withFunction (.callbacks service.protocol c service.handlers)).Framed forbidden
        (s.1.withFunction (.callbacks service.protocol c service.handlers)) :=
      ⟨hs.1, hs.2, congrArg (Table.add · _) hs.3, congrArg (· + 1) hs.4, hs.5, hs.6⟩
    have hout := Framed.run (s := (_, s.2)) hr (ha.withFunction hf)
      (hcall (args ++ EntryRun.callbackArguments service.protocol s.1.table.length)) hin
    rw [EntryRun.body, state_withSlot (by rw [hs.3]; exact hroom rfl) _ _ rfl
      (hout.table_eq.trans (congrArg (Table.add · _) hs.3).symm)]
    refine ⟨hout.1, hout.2, ?_, hout.4, congrArg (· + 1) hout.5, hout.6⟩
    exact congrArg (· ++ [TableSlot.empty]) hs.3

theorem call_mem_body (code : C → List Value → HostProgram C σ Value)
    (runner : Runner (HostFunction C σ) σ (Simulated C σ)) (c : Primitives) (symbol : String)
    (args : List Value)
    {service : Option (CallbackService σ)} {s : Simulated C σ × σ}
    (hroom : service.isSome → s.1.table.length < Table.capacity) :
    ∃ args' t, (.call symbol args', t) ∈
      (EntryRun.body c symbol args service).trace (perform code runner) s := by
  cases service with
  | none => exact ⟨args, s, List.mem_cons_self ..⟩
  | some service =>
    exact ⟨_, _, trace_withSlot (hroom rfl) _ _ _ (List.mem_cons_self ..)⟩

theorem call_reset {symbol : String} {s : Simulated C σ × σ} (hm : s.1.IsReset symbol)
    (hrun : symbol ∉ s.1.running) (args : List Value) :
    call code runner symbol args s =
      (.ok .void, ({ s.1 with heap := s.1.heap.reset, resets := s.1.resets + 1 }, s.2)) := by
  rw [call, show s.1.entries.lookup symbol = some .reset from hm]
  dsimp only
  rw [if_neg hrun, enter]
  simp only [List.erase_cons_head]

theorem state_resetAll {c : Primitives} {symbol : String} (hc : c.reset = some symbol)
    {s : Simulated C σ × σ} (hm : s.1.IsReset symbol) (hrun : s.1.running = []) :
    ((c.resetAll : HostProgram C σ Unit).run (perform code runner) s).2 =
      ({ s.1 with heap := s.1.heap.reset, resets := s.1.resets + 1 }, s.2) := by
  rw [Primitives.resetAll, hc]
  dsimp only
  rw [bind_eq, run_bind, run_call, call_reset hm (by simp [hrun])]
  rfl

theorem call_mem_resetAll {meaning : Meaning (HostFunction C σ) σ (Simulated C σ)} {c : Primitives}
    {symbol : String} (hc : c.reset = some symbol) (s : Simulated C σ × σ) :
    (.call symbol [], s) ∈ (c.resetAll : HostProgram C σ Unit).trace meaning s := by
  rw [Primitives.resetAll, hc]
  exact List.mem_cons_self ..

end SolidityHost.Simulated
