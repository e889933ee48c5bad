import SolidityHost.Proofs.Simulated.CallTree
import SolidityHost.Proofs.Simulated.Delivery

/-!
# Replies in a call tree

An entry point that is built in never calls back, so the entry points that run at a moment of a call
tree are code of the host. The allocator is not among them: wherever in the tree a callback gets a
reply, it can allocate, and it delivers the reply.
-/

set_option autoImplicit false

namespace SolidityHost

variable {C σ : Type} {code : C → List Value → HostProgram C σ Value}
  {runner : Runner (HostFunction C σ) σ (Simulated C σ)} {m n : Simulated C σ}
  {o : Op (HostFunction C σ)} {s t : Simulated C σ × σ} {c : Primitives}

def Primitives.BuiltInto (c : Primitives) (m : Simulated C σ) : Prop :=
  ∀ symbol, c.allocator = .entry symbol → m.entries.lookup symbol = some .allocator

namespace Simulated

def RunsCode (m : Simulated C σ) : Prop :=
  ∀ symbol ∈ m.running, ∃ k, m.entries.lookup symbol = some (.scripted k)

theorem Quiet.runsCode (h : m.Quiet) : m.RunsCode := by
  intro symbol hsymbol
  rw [h.running_eq] at hsymbol
  exact nomatch hsymbol

theorem RunsCode.congr (h : m.RunsCode) (he : n.entries = m.entries) (hr : n.running = m.running) :
    n.RunsCode := by
  intro symbol hsymbol
  rw [he]
  exact h symbol (hr ▸ hsymbol)

theorem RunsCode.begin (h : m.RunsCode) {symbol : String} {k : C}
    (hk : m.entries.lookup symbol = some (.scripted k)) : (m.begin symbol).RunsCode := by
  intro other hother
  obtain rfl | hother := List.mem_cons.1 hother
  · exact ⟨k, hk⟩
  · exact h other hother

theorem RunsCode.notMem (h : m.RunsCode) {symbol : String} {e : Entry C}
    (he : m.entries.lookup symbol = some e) (hb : ∀ k, e ≠ .scripted k) : symbol ∉ m.running := by
  intro hmem
  obtain ⟨k, hk⟩ := h symbol hmem
  exact hb k (Option.some.inj (he.symm.trans hk))

theorem RunsCode.allocatesIn (h : m.RunsCode) (hc : c.BuiltInto m) : c.AllocatesIn m :=
  fun symbol hsymbol => ⟨hc symbol hsymbol, h.notMem (hc symbol hsymbol) (by simp)⟩

theorem control_of_opened?_eq_none (runner : Runner (HostFunction C σ) σ (Simulated C σ))
    (h : opened? code o s = none) :
    (perform code runner o s).2.1.entries = s.1.entries ∧
      (perform code runner o s).2.1.running = s.1.running := by
  obtain h | ⟨f, -, h⟩ | ⟨slot, f, -, -, h⟩ := state_of_opened?_eq_none runner h
  · exact ⟨h.entries_eq, h.running_eq⟩
  · simp [h]
  · simp [h]

/-- The code of an operation starts in a module whose running entry points are code of the host, and
behind it the module runs what it ran before the operation. -/
theorem control_of_opened?_eq_some (runner : Runner (HostFunction C σ) σ (Simulated C σ))
    {a : Activation} {p : HostProgram C σ Value} (h : opened? code o s = some (a, p, t)) :
    t.1.entries = s.1.entries ∧ (s.1.RunsCode → t.1.RunsCode) ∧
      ((runner p t).2.1.entries = t.1.entries → (runner p t).2.1.running = t.1.running →
        (perform code runner o s).2.1.entries = s.1.entries ∧
          (perform code runner o s).2.1.running = s.1.running) := by
  cases opens_of_opened? h with
  | @call symbol c he hrun args =>
    refine ⟨rfl, fun hs => hs.begin he, fun hentries hrunning => ?_⟩
    rw [state_call he hrun args]
    refine ⟨hentries, ?_⟩
    show ((runner _ _).2.1.running.erase symbol) = _
    rw [hrunning]
    exact List.erase_cons_head ..
  | @invoke slot f hf args =>
    refine ⟨rfl, id, fun hentries hrunning => ?_⟩
    rw [state_invoke hf args]
    exact ⟨hentries, hrunning⟩

structure KeepsRunning (m : Simulated C σ) (tree : List (Moment C σ)) (n : Simulated C σ) :
    Prop where
  entries_eq : n.entries = m.entries
  running_eq : n.running = m.running
  moments : m.RunsCode → ∀ x ∈ tree, x.before.1.entries = m.entries ∧ x.before.1.RunsCode

namespace KeepsRunning

theorem sequential :
    Sequential (KeepsRunning : Simulated C σ → List (Moment C σ) → Simulated C σ → Prop) where
  nil m := ⟨rfl, rfl, fun _ _ hx => nomatch hx⟩
  append := by
    intro m n k l l' h h'
    refine ⟨h'.entries_eq.trans h.entries_eq, h'.running_eq.trans h.running_eq, fun hm x hx => ?_⟩
    obtain hx | hx := List.mem_append.1 hx
    · exact h.moments hm x hx
    · obtain ⟨he, hr⟩ := h'.moments (hm.congr h.entries_eq h.running_eq) x hx
      exact ⟨he.trans h.entries_eq, hr⟩

theorem perform {logger : Logger (HostFunction C σ) σ (Simulated C σ) (Moment C σ)}
    (hl : ∀ p s, KeepsRunning s.1 (logger p s) (runner p s).2.1) (o : Op (HostFunction C σ))
    (s : Simulated C σ × σ) :
    KeepsRunning s.1 (observe code runner logger o s) (perform code runner o s).2.1 := by
  unfold observe
  cases ho : opened? code o s with
  | none =>
    obtain ⟨he, hr⟩ := control_of_opened?_eq_none runner ho
    refine ⟨he, hr, fun hs x hx => ?_⟩
    obtain rfl := List.mem_singleton.1 hx
    exact ⟨rfl, hs⟩
  | some entered =>
    obtain ⟨a, p, t⟩ := entered
    have hin := hl p t
    obtain ⟨he, hr, hback⟩ := control_of_opened?_eq_some runner ho
    obtain ⟨hentries, hrunning⟩ := hback hin.entries_eq hin.running_eq
    refine ⟨hentries, hrunning, fun hs x hx => ?_⟩
    obtain rfl | hx := List.mem_cons.1 hx
    · exact ⟨rfl, hs⟩
    · obtain ⟨y, hy, rfl⟩ := List.mem_map.1 hx
      obtain ⟨hentries, hrun⟩ := hin.moments (hr hs) y hy
      exact ⟨hentries.trans he, hrun⟩

end KeepsRunning

theorem runsCode_of_mem_moments (hm : m.RunsCode) {depth : Nat} {w : σ} {x : Moment C σ}
    (hx : x ∈ moments code depth o (m, w)) :
    x.before.1.entries = m.entries ∧ x.before.1.RunsCode :=
  (KeepsRunning.sequential.nested (fun _ _ hl o s => KeepsRunning.perform hl o s) depth o
    (m, w)).moments hm x hx

/-- A moment of a call tree ends as its operation does when that many programs may run inside each
other as are left. -/
theorem result_of_mem_moments {depth : Nat} {x : Moment C σ} (hx : x ∈ moments code depth o s) :
    ∃ left ≤ depth, x.result = Meaning.nested (Simulated.perform code) left x.op x.before := by
  induction depth generalizing o s x with
  | zero =>
    unfold moments Observer.nested observe at hx
    obtain rfl | hx := List.mem_cons.1 hx
    · exact ⟨0, Nat.le_refl 0, rfl⟩
    · split at hx <;> exact nomatch hx
  | succ depth ih =>
    unfold moments Observer.nested observe at hx
    obtain rfl | hx := List.mem_cons.1 hx
    · exact ⟨depth + 1, Nat.le_refl _, rfl⟩
    · split at hx
      · -- a later moment is one of an operation of the program that the operation runs
        obtain ⟨y, hy, rfl⟩ := List.mem_map.1 hx
        obtain ⟨e, -, hy⟩ := List.mem_flatMap.1 hy
        obtain ⟨left, hleft, hresult⟩ := ih hy
        exact ⟨left, Nat.le_succ_of_le hleft, hresult⟩
      · exact nomatch hx

/-- A callback that got a reply delivers it, unless too many programs are running to run it at all. -/
def Moment.Delivers (c : Primitives) : Moment C σ → Prop
  | ⟨_, .invoke slot args, s, result⟩ =>
    ∀ protocol handlers q contents error reply w,
      s.1.table.idle? slot = some (.callbacks protocol c handlers) → s.1.Poses protocol args q →
      q.contents = .pointer contents → q.error = .pointer error →
      handlers.answer q.kind q.data s.2 = (.ok reply, w) →
        result = (.error (.abort .stackExhausted), s) ∨
          ∃ r heap, result = (r, ({ s.1 with heap }, w)) ∧
            Delivery s.1.heap reply contents error r heap
  | _ => True

theorem Poses.checkOut {protocol : Protocol} {args : List Value} {q : Question}
    (h : m.Poses protocol args q) (slot : Nat) (f : HostFunction C σ) :
    (m.checkOut slot f).Poses protocol args q := by
  cases h with
  | importOnly hdata => exact .importOnly hdata
  | kinded hkind hdata => exact .kinded hkind hdata

section

variable {slot : Nat} {f : HostFunction C σ}

theorem restore_checkOut (hf : m.table.idle? slot = some f) (heap : Heap) :
    ({ m.checkOut slot f with heap } : Simulated C σ).restore slot f = { m with heap } :=
  congrArg (fun table => { m with heap, table }) (Table.restore_checkOut hf)

theorem invoke_exhausted (hf : s.1.table.idle? slot = some f) (args : List Value) :
    perform code (fun _ s => (.error (.abort .stackExhausted), s)) (.invoke slot args) s =
      (.error (.abort .stackExhausted), s) := by
  rw [perform_invoke hf]
  exact congrArg (Prod.mk _) (congrArg (·, s.2) (restore_checkOut hf s.1.heap))

end

theorem invoke_delivers {slot : Nat} {protocol : Protocol} {handlers : Handlers σ}
    {args : List Value} {q : Question} {contents error : Word} {reply : Reply} {w : σ}
    (hc : c.AllocatesIn s.1) (hf : s.1.table.idle? slot = some (.callbacks protocol c handlers))
    (hq : s.1.Poses protocol args q) (hcontents : q.contents = .pointer contents)
    (herror : q.error = .pointer error)
    (hreply : handlers.answer q.kind q.data s.2 = (.ok reply, w)) :
    ∃ r heap, perform code (fun p s => p.run (perform code runner) s) (.invoke slot args) s =
        (r, ({ s.1 with heap }, w)) ∧ Delivery s.1.heap reply contents error r heap := by
  have hin : c.AllocatesIn (s.1.checkOut slot (.callbacks protocol c handlers)) := hc
  obtain ⟨r, heap, hrun, hd⟩ := exists_delivery hin code runner reply contents error w
  refine ⟨r, heap, ?_, hd⟩
  rw [perform_invoke hf, (hq.checkOut slot _).run_callback hreply, hcontents, herror, hrun]
  exact congrArg (Prod.mk r) (congrArg (·, w) (restore_checkOut hf heap))

theorem delivers_of_allocatesIn (hc : c.AllocatesIn s.1) (stack : List Activation)
    (o : Op (HostFunction C σ)) (left : Nat) :
    (⟨stack, o, s, Meaning.nested (perform code) left o s⟩ : Moment C σ).Delivers c := by
  cases o with
  | invoke slot args =>
    intro protocol handlers q contents error reply w hf hq hcontents herror hreply
    cases left with
    | zero => exact .inl (invoke_exhausted hf args)
    | succ left =>
      obtain ⟨runner, hrunner, -⟩ := nested_eq_perform code left
      rw [Meaning.nested, hrunner]
      exact .inr (invoke_delivers hc hf hq hcontents herror hreply)
  | _ => trivial

/-- Along the call tree of an operation on a module in which no code is active, every callback that
gets a reply delivers it. -/
theorem callTree_delivers (hm : m.Quiet) (hc : c.BuiltInto m) {depth : Nat} {w : σ}
    {x : Moment C σ} (hx : x ∈ moments code depth o (m, w)) : x.Delivers c := by
  obtain ⟨hentries, hrun⟩ := runsCode_of_mem_moments hm.runsCode hx
  have hbuilt : c.BuiltInto x.before.1 := fun symbol hsymbol => hentries ▸ hc symbol hsymbol
  obtain ⟨left, -, hresult⟩ := result_of_mem_moments hx
  obtain ⟨stack, o, s, result⟩ := x
  dsimp only at hresult
  subst hresult
  exact delivers_of_allocatesIn (hrun.allocatesIn hbuilt) stack o left

end Simulated

end SolidityHost
