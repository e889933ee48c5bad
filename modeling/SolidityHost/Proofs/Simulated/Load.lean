import SolidityHost.Compiler
import SolidityHost.Proofs.Simulated.EntryRun

/-!
# Loading from a simulated module

A module is loaded by asking which exports it has and calling the one that gives the version, so
the primitives of a compiler are those of its module, and loading leaves the function table alone.
-/

set_option autoImplicit false

namespace SolidityHost

open Program

variable {C σ : Type} {code : C → List Value → HostProgram C σ Value}
  {runner : Runner (HostFunction C σ) σ (Simulated C σ)} {forbidden : String → Prop}

def Primitives.KnowsReset (c : Primitives) (m : Simulated C σ) : Prop :=
  c.reset = if (m.entries.lookup Export.solidityReset.symbol).isSome then
    some Export.solidityReset.symbol else none

namespace Simulated

theorem run_presentExports (es : List Export) (s : Simulated C σ × σ) :
    (presentExports es : HostProgram C σ (List Export)).run (perform code runner) s =
      (.ok (es.filter fun e => (s.1.entries.lookup e.symbol).isSome), s) := by
  induction es with
  | nil => rfl
  | cons e es ih =>
    have hp : (Program.perform (.exports e.symbol) : HostProgram C σ Bool).run
        (perform code runner) s = (.ok (s.1.entries.lookup e.symbol).isSome, s) := rfl
    rw [presentExports, bind_eq, run_bind, hp]
    dsimp only
    rw [bind_eq, run_bind, ih, List.filter_cons]
    rfl

theorem presentExports_confined (es : List Export) :
    (presentExports es : HostProgram C σ (List Export)).Confined Op.Asks := by
  induction es with
  | nil => exact .pure _
  | cons e es ih => exact .bind (.perform trivial) fun _ => .bind ih fun _ => .pure _

theorem readVersion_confined (c : Primitives) :
    (c.readVersion : HostProgram C σ ReportedVersion).Confined Op.Asks := by
  refine .bind ?_ fun _ => .pure _
  apply Confined.bind (.perform trivial)
  intro v
  exact .bind (.ofOutcome _) fun _ => .perform trivial

theorem load_confined : (Compiler.load : HostProgram C σ Compiler).Confined Op.Asks := by
  refine .bind ?_ fun _ => .pure _
  apply Confined.bind (presentExports_confined _)
  intro present
  dsimp only
  split
  · exact .raise _
  · exact .bind (readVersion_confined _) fun _ => .pure _

theorem reset_of_resolve {es : Exports} {c : Primitives} (h : Primitives.resolve es = .ok c) :
    c.reset = if es.has .solidityReset then some Export.solidityReset.symbol else none := by
  unfold Primitives.resolve at h
  split at h
  · contradiction
  · obtain rfl := Except.ok.inj h
    by_cases hr : es.has .solidityReset <;> simp [Exports.first?, hr]

theorem knowsReset_of_load {s t : Simulated C σ × σ} {c : Compiler}
    (h : (Compiler.load : HostProgram C σ Compiler).run (perform code runner) s = (.ok c, t)) :
    c.primitives.KnowsReset s.1 := by
  obtain ⟨⟨d, p⟩, s', hp, hc⟩ := run_bind_eq_ok h
  obtain ⟨present, s'', he, hr⟩ := run_bind_eq_ok hp
  rw [run_presentExports] at he
  obtain ⟨hpresent, rfl⟩ := Prod.mk.inj he
  obtain rfl := Except.ok.inj hpresent
  obtain rfl := (Except.ok.inj (Prod.mk.inj hc).1).symm
  dsimp only at hr
  split at hr
  · exact nomatch (Prod.mk.inj hr).1
  · next primitives hres =>
    obtain ⟨version, s', -, hv⟩ := run_bind_eq_ok hr
    obtain ⟨-, rfl⟩ := Prod.mk.inj (Except.ok.inj (Prod.mk.inj hv).1)
    have hall : Export.solidityReset ∈ Export.all := by decide
    rw [Primitives.KnowsReset, reset_of_resolve hres]
    simp only [List.contains_iff_mem, List.mem_filter, hall, true_and]

/-- What a compiler and its module are like after loading can be tried out. -/
theorem exists_loaded {s : Simulated C σ × σ} {P : Compiler → Simulated C σ × σ → Prop}
    [∀ c t, Decidable (P c t)]
    (h : (match Simulated.run code Compiler.load s with
      | (.ok c, t) => decide (P c t)
      | _ => false) = true) :
    ∃ c t, Simulated.run code Compiler.load s = (.ok c, t) ∧ P c t := by
  split at h
  · next c t hload => exact ⟨c, t, hload, of_decide_eq_true h⟩
  · contradiction

def BuiltIn (m : Simulated C σ) : Prop :=
  ∀ symbol k, m.entries.lookup symbol ≠ some (.scripted k)

theorem allocate_withSpentSlots (m : Simulated C σ) (count : Nat) (size : Nat) :
    (m.withSpentSlots count).allocate size =
      ((m.allocate size).1, (m.allocate size).2.withSpentSlots count) := by
  unfold Simulated.allocate withSpentSlots
  cases m.heap.allocate? size <;> rfl

theorem writeBytes_withSpentSlots (m : Simulated C σ) (count : Nat) (p : Word)
    (bytes : List UInt8) : (m.withSpentSlots count).writeBytes p bytes =
      ((m.writeBytes p bytes).1, (m.writeBytes p bytes).2.withSpentSlots count) := by
  unfold Simulated.writeBytes withSpentSlots
  cases m.heap.write? p bytes <;> rfl

theorem allocateText_withSpentSlots (m : Simulated C σ) (count : Nat) (s : String) :
    (m.withSpentSlots count).allocateText s =
      ((m.allocateText s).1, (m.allocateText s).2.withSpentSlots count) := by
  unfold Simulated.allocateText
  rw [allocate_withSpentSlots]
  rcases m.allocate (Utf8.width s + 1) with ⟨_ | p, n⟩
  · rfl
  · dsimp only
    rw [writeBytes_withSpentSlots]
    rcases n.writeBytes p (Utf8.encode s ++ [0]) with ⟨_ | _, n'⟩ <;> rfl

theorem enter_withSpentSlots (code : C → List Value → HostProgram C σ Value)
    (runner : Runner (HostFunction C σ) σ (Simulated C σ)) {e : Entry C}
    (he : ∀ k, e ≠ .scripted k) (args : List Value)
    (count : Nat) (s : Simulated C σ × σ) :
    enter code runner e args (s.1.withSpentSlots count, s.2) =
      ((enter code runner e args s).1, ((enter code runner e args s).2.1.withSpentSlots count,
        (enter code runner e args s).2.2)) := by
  cases e with
  | scripted k => exact absurd rfl (he k)
  | text v =>
    unfold enter
    dsimp only
    rw [allocateText_withSpentSlots]
  | allocator =>
    unfold enter
    dsimp only
    split
    · split
      · rfl
      · rw [allocate_withSpentSlots]
    · rfl
  | reset => rfl

theorem call_withSpentSlots {m : Simulated C σ} (hm : m.BuiltIn) (symbol : String)
    (args : List Value) (count : Nat) (w : σ) :
    call code runner symbol args (m.withSpentSlots count, w) =
      ((call code runner symbol args (m, w)).1,
        ((call code runner symbol args (m, w)).2.1.withSpentSlots count,
          (call code runner symbol args (m, w)).2.2)) := by
  unfold call
  have hentries : (m.withSpentSlots count).entries = m.entries := rfl
  have hrunning : (m.withSpentSlots count).running = m.running := rfl
  rw [hentries, hrunning]
  cases he : m.entries.lookup symbol with
  | none => rfl
  | some e =>
    dsimp only
    split
    · rfl
    · have hk : ∀ k, e ≠ .scripted k := fun k hek => hm symbol k (hek ▸ he)
      have henter := enter_withSpentSlots code runner hk args count
        ({ m with running := symbol :: m.running }, w)
      unfold withSpentSlots at henter ⊢
      dsimp only at henter ⊢
      rw [henter]

/-- If all entry points are built in, loading does not depend on spent slots. -/
theorem load_withSpentSlots (hr : Frames code runner) {m : Simulated C σ} (hm : m.BuiltIn)
    (ha : m.Avoids (fun _ => False) code) (count : Nat) (w : σ) :
    (Compiler.load : HostProgram C σ Compiler).run (perform code runner)
        (m.withSpentSlots count, w) =
      (((Compiler.load : HostProgram C σ Compiler).run (perform code runner) (m, w)).1,
        (((Compiler.load : HostProgram C σ Compiler).run (perform code runner)
          (m, w)).2.1.withSpentSlots count,
          ((Compiler.load : HostProgram C σ Compiler).run (perform code runner) (m, w)).2.2)) := by
  refine load_confined.run_map (P := m.Framed fun _ => False) (g := (withSpentSlots · count))
    (s := (m, w)) (fun o s ho hs => hs.perform hr ha ho.avoids) ?_ (Framed.refl m)
  intro o s ho hs
  cases o with
  | call symbol args =>
    have hn : s.1.BuiltIn := by
      unfold BuiltIn
      rw [hs.entries_eq]
      exact hm
    exact call_withSpentSlots hn symbol args count s.2
  | exports symbol => rfl
  | readText p => rfl
  | _ => exact ho.elim

end Simulated

end SolidityHost
