import SolidityHost.Proofs.Compiler.Request
import SolidityHost.Proofs.Simulated.Load

/-!
# Histories

The history of a module lists what each request did with it. A visit is disciplined if it leaves the
module at rest, spends a slot only for callbacks, and resets the module once, behind the release.
-/

set_option autoImplicit false

namespace SolidityHost.Simulated

open Program

variable {C σ α β : Type} {code : C → List Value → HostProgram C σ Value}
  {forbidden : String → Prop} {m n : Simulated C σ} {c : Compiler}

structure AtRest (m : Simulated C σ) : Prop where
  running_eq : m.running = []
  empty : ∀ x ∈ m.table, x = .empty
  released_eq : m.released = m.registered

theorem AtRest.avoids (hm : m.AtRest)
    (he : ∀ symbol k, m.entries.lookup symbol = some (.scripted k) →
      ∀ args, (code k args).Confined (Op.Avoids forbidden)) : m.Avoids forbidden code where
  entries := he
  table := by
    intro i f hf
    have hmem := List.mem_of_getElem? (Table.idle?_eq_some_iff.1 hf)
    exact nomatch hm.empty _ hmem

theorem atRest_ofEntries (entries : List (String × Entry C)) :
    (ofEntries entries : Simulated C σ).AtRest where
  running_eq := rfl
  empty := by simp [ofEntries]
  released_eq := rfl

theorem AtRest.framed (hm : m.AtRest) (h : m.Framed forbidden n) : n.AtRest where
  running_eq := h.running_eq.trans hm.running_eq
  empty := by rw [h.table_eq]; exact hm.empty
  released_eq := by rw [h.released_eq, h.registered_eq, hm.released_eq]

theorem AtRest.withSpentSlots (hm : m.AtRest) (count : Nat) : (m.withSpentSlots count).AtRest where
  running_eq := hm.running_eq
  empty := by
    intro x hx
    rcases List.mem_append.1 hx with hx | hx
    · exact hm.empty x hx
    · exact List.eq_of_mem_replicate hx
  released_eq := congrArg (· + count) hm.released_eq

structure Ready (code : C → List Value → HostProgram C σ Value) (c : Compiler)
    (m : Simulated C σ) : Prop where
  atRest : m.AtRest
  avoids : m.Avoids m.IsReset code
  knowsReset : c.primitives.KnowsReset m

namespace Ready

theorem avoids_none (h : Ready code c m) : m.Avoids (fun _ => False) code := by
  apply h.atRest.avoids
  intro symbol k hk args
  apply (h.avoids.entries symbol k hk args).mono
  intro o ho
  cases o with
  | call symbol args => exact not_false
  | _ => exact ho

theorem of_entries_eq (h : Ready code c m) (hn : n.AtRest) (he : n.entries = m.entries) :
    Ready code c n where
  atRest := hn
  avoids := by
    have hreset : n.IsReset = m.IsReset := by
      funext symbol
      rw [IsReset, he]
      rfl
    rw [hreset]
    apply hn.avoids
    intro symbol k hk
    rw [he] at hk
    exact h.avoids.entries symbol k hk
  knowsReset := by
    rw [Primitives.KnowsReset, he]
    exact h.knowsReset

theorem ne_reset (h : Ready code c m) (e : CompileEntry) :
    c.primitives.reset ≠ some e.symbol := by
  rw [h.knowsReset]
  split
  · exact fun heq => e.symbol_ne_reset (Option.some.inj heq).symm
  · exact nofun

end Ready

structure Visit (C σ : Type) where
  before : Simulated C σ
  after : Simulated C σ
  trace : List (Op (HostFunction C σ) × (Simulated C σ × σ))

def visit (meaning : Meaning (HostFunction C σ) σ (Simulated C σ)) (p : HostProgram C σ α)
    (s : Simulated C σ × σ) : Visit C σ :=
  ⟨s.1, (p.run meaning s).2.1, p.trace meaning s⟩

section

variable (meaning : Meaning (HostFunction C σ) σ (Simulated C σ)) (p : HostProgram C σ α)
  (s : Simulated C σ × σ)

@[simp] theorem after_visit : (visit meaning p s).after = (p.run meaning s).2.1 := rfl

@[simp] theorem trace_visit : (visit meaning p s).trace = p.trace meaning s := rfl

end

theorem visit_andThen (meaning : Meaning (HostFunction C σ) σ (Simulated C σ))
    (p : HostProgram C σ α) (f : α → Outcome β) (s : Simulated C σ × σ) :
    visit meaning (p >>= fun a => .finish (f a)) s = visit meaning p s := by
  unfold visit
  rw [bind_eq, run_bind, trace_bind]
  rcases p.run meaning s with ⟨_ | _, s'⟩ <;> simp [Program.run, Program.trace]

def history (code : C → List Value → HostProgram C σ Value) (depth : Nat) (c : Compiler) :
    List (Request σ) → Simulated C σ × σ → List (Visit C σ)
  | [], _ => []
  | r :: rest, s =>
    visit (Meaning.nested (perform code) depth) (r.program c) s ::
      history code depth c rest ((r.program c).run (Meaning.nested (perform code) depth) s).2

namespace Visit

def Invoked (v : Visit C σ) (e : CompileEntry) : Prop :=
  ∃ args t, (.call e.symbol args, t) ∈ v.trace

instance (v : Visit C σ) (e : CompileEntry) : Decidable (v.Invoked e) :=
  decidable_of_iff (v.trace.any fun x => x.1.calls e.symbol) <| by
    rw [List.any_eq_true]
    constructor
    · rintro ⟨⟨o, t⟩, hmem, ho⟩
      obtain ⟨args, rfl⟩ := Op.calls_iff.1 ho
      exact ⟨args, t, hmem⟩
    · rintro ⟨args, t, hmem⟩
      exact ⟨_, hmem, Op.calls_iff.2 ⟨args, rfl⟩⟩

/-- The only reset of the visit is the call of the built-in one that meets `t`. All slots are
released by then, and nothing is allocated afterwards. -/
structure CleanedAt (v : Visit C σ) (t : Simulated C σ × σ) : Prop where
  mem_trace : (.call Export.solidityReset.symbol [], t) ∈ v.trace
  empty : ∀ x ∈ t.1.table, x = .empty
  released_eq : t.1.released = v.after.released
  resets_before : t.1.resets = v.before.resets
  resets_after : v.after.resets = v.before.resets + 1
  size_eq : v.after.heap.size = Heap.base

structure Disciplined (c : Compiler) (v : Visit C σ) : Prop where
  atRest : v.after.AtRest
  entries_eq : v.after.entries = v.before.entries
  counted : ∀ e : CompileEntry, e.takesCallbacks → v.Invoked e →
    v.after.registered = v.before.registered + 1 ∧ v.after.released = v.before.released + 1
  uncounted : (∀ e : CompileEntry, e.takesCallbacks → ¬ v.Invoked e) →
    v.after.registered = v.before.registered ∧ v.after.released = v.before.released
  cleaned : v.before.IsReset Export.solidityReset.symbol →
    ∀ e, v.Invoked e → ¬ v.before.IsReset e.symbol →
      (e.takesCallbacks → c.primitives.AllocatorAvoids v.before.IsReset) → ∃ t, v.CleanedAt t
  untouched : (∀ e, ¬ v.Invoked e) → v.after = v.before ∨
    Table.capacity ≤ v.before.table.length ∧
      (v.before.IsReset Export.solidityReset.symbol → ∃ t, v.CleanedAt t)

theorem Disciplined.of_idle {v : Visit C σ} (hm : v.before.AtRest) (ha : v.after = v.before)
    (hi : ∀ e, ¬ v.Invoked e) : v.Disciplined c where
  atRest := ha ▸ hm
  entries_eq := ha ▸ rfl
  counted e _ h := absurd h (hi e)
  uncounted _ := by simp [ha]
  cleaned _ e h := absurd h (hi e)
  untouched _ := .inl ha

end Visit

end SolidityHost.Simulated
