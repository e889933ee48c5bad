import SolidityHost.Proofs.Host.Table
import SolidityHost.Proofs.Native.History
import Mathlib.Logic.Function.Basic

/-!
# Handles of a native module

The ledger of a history says which function holds which slot: the one that was registered there and
not released since. A table follows the ledger as long as no function is registered in the slot of a
function that runs. Such a slot can be given up, with the slots behind it, and used again; the
function that ran then takes the place of the one that was registered meanwhile.
-/

set_option autoImplicit false

namespace SolidityHost.Native

variable {C σ α : Type} {code : C → List Value → HostProgram C σ Value}

/-- The functions that hold slots, and those that run, the innermost first. -/
structure Ledger (C σ : Type) where
  held : Nat → Option (HostFunction C σ)
  running : List (Nat × HostFunction C σ)

namespace Ledger

variable {L : Ledger C σ} {t : Table (HostFunction C σ)} {l l' : List (Record C σ)}

def ofTable (t : Table (HostFunction C σ)) : Ledger C σ := ⟨t.idle?, []⟩

def note (L : Ledger C σ) : Event C σ → Ledger C σ
  | .registered i f => { L with held := Function.update L.held i (some f) }
  | .released i => { L with held := Function.update L.held i none }
  | .began i f => { L with running := (i, f) :: L.running }
  | .ended i => { L with running := L.running.filter (·.1 ≠ i) }
  | .reached _ => L
  | .left _ => L

def notes (L : Ledger C σ) (l : List (Record C σ)) : Ledger C σ :=
  l.foldl (fun L x => L.note x.event) L

/-- A function that holds a slot is ready there or runs, and there are no other functions. -/
def Faithful (L : Ledger C σ) (t : Table (HostFunction C σ)) : Prop :=
  ∀ i f, L.held i = some f ↔ t.idle? i = some f ∨ (i, f) ∈ L.running

def Follows : Ledger C σ → List (Record C σ) → Prop
  | _, [] => True
  | L, x :: l => (L.note x.event).Faithful x.table ∧ (L.note x.event).Follows l

def Admits (L : Ledger C σ) : Event C σ → Prop
  | .registered i _ => i ∉ L.running.map Prod.fst
  | _ => True

/-- No function is registered in the slot of one that runs. -/
def Clear : Ledger C σ → List (Record C σ) → Prop
  | _, [] => True
  | L, x :: l => L.Admits x.event ∧ (L.note x.event).Clear l

instance (L : Ledger C σ) : (e : Event C σ) → Decidable (L.Admits e)
  | .registered i _ => inferInstanceAs (Decidable (i ∉ L.running.map Prod.fst))
  | .released _ => isTrue trivial
  | .began _ _ => isTrue trivial
  | .ended _ => isTrue trivial
  | .reached _ => isTrue trivial
  | .left _ => isTrue trivial

instance decidableClear : (L : Ledger C σ) → (l : List (Record C σ)) → Decidable (L.Clear l)
  | _, [] => isTrue trivial
  | L, x :: l =>
    have := decidableClear (L.note x.event) l
    inferInstanceAs (Decidable (_ ∧ _))

@[simp] theorem held_registered (i j : Nat) (f : HostFunction C σ) :
    (L.note (.registered i f)).held j = if j = i then some f else L.held j :=
  Function.update_apply ..

@[simp] theorem held_released (i j : Nat) :
    (L.note (.released i)).held j = if j = i then none else L.held j :=
  Function.update_apply ..

theorem notes_append : L.notes (l ++ l') = (L.notes l).notes l' := List.foldl_append

theorem follows_append : L.Follows (l ++ l') ↔ L.Follows l ∧ (L.notes l).Follows l' := by
  induction l generalizing L with
  | nil => exact ⟨fun h => ⟨trivial, h⟩, fun h => h.2⟩
  | cons x l ih =>
    rw [List.cons_append, Follows, Follows, ih, and_assoc]
    rfl

theorem clear_append : L.Clear (l ++ l') ↔ L.Clear l ∧ (L.notes l).Clear l' := by
  induction l generalizing L with
  | nil => exact ⟨fun h => ⟨trivial, h⟩, fun h => h.2⟩
  | cons x l ih =>
    rw [List.cons_append, Clear, Clear, ih, and_assoc]
    rfl

structure Sound (L : Ledger C σ) (t : Table (HostFunction C σ)) : Prop where
  faithful : L.Faithful t
  idle?_eq : ∀ e ∈ L.running, t.idle? e.1 = none
  nodup : (L.running.map Prod.fst).Nodup

theorem sound_ofTable (t : Table (HostFunction C σ)) : (ofTable t).Sound t where
  faithful _ _ := ⟨.inl, fun h => h.resolve_right List.not_mem_nil⟩
  idle?_eq _ he := nomatch he
  nodup := .nil

namespace Sound

variable {i : Nat} {f : HostFunction C σ}

theorem notMem_running (h : L.Sound t) (hf : t.idle? i = some f) (g : HostFunction C σ) :
    (i, g) ∉ L.running := by
  intro hg
  have hnone := h.idle?_eq _ hg
  rw [hf] at hnone
  contradiction

theorem register (h : L.Sound t) (hclear : L.Admits (.registered t.length f)) :
    (L.note (.registered t.length f)).Sound (t.add f) where
  faithful := by
    intro j g
    rw [held_registered, Table.idle?_add]
    by_cases hj : j = t.length
    · rw [if_pos hj, if_pos hj, hj]
      exact ⟨.inl, fun hg => hg.resolve_right fun hr => hclear (List.mem_map_of_mem hr)⟩
    · rw [if_neg hj, if_neg hj]
      exact h.faithful j g
  idle?_eq := by
    rintro ⟨j, g⟩ he
    rw [Table.idle?_add, if_neg]
    · exact h.idle?_eq _ he
    · rintro rfl
      exact hclear (List.mem_map_of_mem he)
  nodup := h.nodup

theorem release (h : L.Sound t) (hf : t.idle? i = some f) :
    (L.note (.released i)).Sound (t.clear i).shrink where
  faithful := by
    intro j g
    rw [held_released, Table.idle?_shrink, Table.idle?_clear]
    by_cases hj : j = i
    · rw [if_pos hj, if_pos hj, hj]
      exact ⟨nofun, fun hg => absurd (hg.resolve_left nofun) (h.notMem_running hf g)⟩
    · rw [if_neg hj, if_neg hj]
      exact h.faithful j g
  idle?_eq := by
    intro e he
    rw [Table.idle?_shrink, Table.idle?_clear]
    split
    · rfl
    · exact h.idle?_eq e he
  nodup := h.nodup

theorem checkOut (h : L.Sound t) (hf : t.idle? i = some f) :
    (L.note (.began i f)).Sound (t.checkOut i f) where
  faithful := by
    intro j g
    rw [note, Table.idle?_checkOut, List.mem_cons, Prod.mk.injEq, h.faithful j g]
    by_cases hj : j = i
    · subst hj
      simp [hf, h.notMem_running hf g, eq_comm]
    · simp [hj]
  idle?_eq := by
    intro e he
    rw [Table.idle?_checkOut]
    split
    · rfl
    · next hne =>
      rcases List.mem_cons.1 he with rfl | he
      · exact absurd rfl hne
      · exact h.idle?_eq e he
  nodup := by
    refine List.nodup_cons.2 ⟨fun hi => ?_, h.nodup⟩
    obtain ⟨⟨j, g⟩, he, rfl⟩ := List.mem_map.1 hi
    exact h.notMem_running hf g he

theorem restore {L' : Ledger C σ} (h : L'.Sound t) (hrun : L'.running = (i, f) :: L.running) :
    (L'.note (.ended i)).Sound (t.restore i f) ∧ (L'.note (.ended i)).running = L.running := by
  have hnodup := h.nodup
  rw [hrun, List.map_cons, List.nodup_cons] at hnodup
  have hne : ∀ e ∈ L.running, e.1 ≠ i := by
    intro e he heq
    have hmem : e.1 ∈ L.running.map Prod.fst := List.mem_map_of_mem he
    rw [heq] at hmem
    exact hnodup.1 hmem
  have hback : (L'.note (.ended i)).running = L.running := by
    rw [note, hrun, List.filter_cons_of_neg (by simp)]
    exact List.filter_eq_self.2 fun e he => by simpa using hne e he
  have hnone : t.idle? i = none := h.idle?_eq (i, f) (by rw [hrun]; exact List.mem_cons_self ..)
  refine ⟨⟨?_, ?_, ?_⟩, hback⟩
  · intro j g
    rw [hback, Table.idle?_restore]
    refine (h.faithful j g).trans ?_
    rw [hrun, List.mem_cons, Prod.mk.injEq]
    by_cases hj : j = i
    · subst hj
      simp [hnone, eq_comm]
    · simp [hj]
  · intro e he
    rw [hback] at he
    rw [Table.idle?_restore, if_neg (hne e he)]
    exact h.idle?_eq e (by rw [hrun]; exact List.mem_cons_of_mem _ he)
  · rw [hback]
    exact hnodup.2

end Sound

end Ledger

def Accounts (m : Native C σ) (l : List (Record C σ)) (n : Native C σ) : Prop :=
  ∀ L : Ledger C σ, L.Sound m.table → L.Clear l →
    L.Follows l ∧ (L.notes l).Sound n.table ∧ (L.notes l).running = L.running

namespace Accounts

variable {m n k : Native C σ} {l l' : List (Record C σ)}

theorem append (h : Accounts m l n) (h' : Accounts n l' k) : Accounts m (l ++ l') k := by
  intro L hs hc
  obtain ⟨hcl, hcl'⟩ := Ledger.clear_append.1 hc
  obtain ⟨hf, hs', hr⟩ := h L hs hcl
  obtain ⟨hf', hs'', hr'⟩ := h' (L.notes l) hs' hcl'
  rw [Ledger.notes_append]
  exact ⟨Ledger.follows_append.2 ⟨hf, hf'⟩, hs'', hr'.trans hr⟩

theorem single {x : Record C σ} (ht : n.table = x.table)
    (h : ∀ L : Ledger C σ, L.Sound m.table → L.Clear [x] →
      (L.note x.event).Sound x.table ∧ (L.note x.event).running = L.running) :
    Accounts m [x] n := by
  intro L hs hc
  obtain ⟨hs', hr⟩ := h L hs hc
  rw [ht]
  exact ⟨⟨hs'.faithful, trivial⟩, hs', hr⟩

theorem nil (ht : n.table = m.table) : Accounts m [] n := by
  intro L hs _
  rw [ht]
  exact ⟨trivial, hs, rfl⟩

theorem still {x : Record C σ} (hx : x.table = m.table) (hn : n.table = x.table)
    (h : ∀ L : Ledger C σ, L.note x.event = L) : Accounts m [x] n := by
  apply single hn
  intro L hs _
  rw [h, hx]
  exact ⟨hs, rfl⟩

theorem invoke {slot : Nat} {f : HostFunction C σ} (hf : m.table.idle? slot = some f)
    (h : Accounts (m.checkOut slot f) l n) :
    Accounts m (⟨.began slot f, (m.checkOut slot f).table⟩ ::
      (l ++ [⟨.ended slot, (n.restore slot f).table⟩])) (n.restore slot f) := by
  intro L hs hc
  have hin := hs.checkOut hf
  obtain ⟨hl, hs', hr⟩ := h _ hin (Ledger.clear_append.1 hc.2).1
  obtain ⟨hout, hback⟩ := hs'.restore hr
  have hnotes : ((L.note (.began slot f)).notes
      (l ++ [⟨.ended slot, (n.restore slot f).table⟩])) =
        ((L.note (.began slot f)).notes l).note (.ended slot) := Ledger.notes_append
  refine ⟨⟨hin.faithful, Ledger.follows_append.2 ⟨hl, hout.faithful, trivial⟩⟩, ?_, ?_⟩
  · exact hnotes ▸ hout
  · exact hnotes ▸ hback

theorem explains (code : C → List Value → HostProgram C σ Value) :
    Explains code (Accounts : Native C σ → List (Record C σ) → Native C σ → Prop) where
  nil m := nil rfl
  append := append
  memory m memory := nil rfl
  register m f := single rfl fun L hs hc => ⟨hs.register hc.1, rfl⟩
  release hf := single rfl fun L hs _ => ⟨hs.release hf, rfl⟩
  invoke := invoke
  ignored _ _ := (still rfl rfl fun _ => rfl).append (still rfl rfl fun _ => rfl)
  answered := by
    intro d l hd _ h
    have htable : (d.after code).1.table =
        (answer code d.runner d.protocol d.args d.before).2.1.table := by
      rw [Dispatch.after_of_heeded hd]
    exact (still rfl rfl fun _ => rfl).append (h.append (still htable rfl fun _ => rfl))
  call := by
    intro m l n _ h L hs hc
    rw [table_exit]
    exact h L hs hc

end Accounts

/-- As long as no function is registered in the slot of one that runs, every function is in the slot
where it was registered, or runs out of it, until it is released; and no other function is there. -/
theorem handles_faithful (p : HostProgram C σ α) (depth : Nat) (m : Native C σ) (w : σ)
    (hclear : (Ledger.ofTable m.table).Clear
      (p.log (Meaning.nested (perform code) depth) (history code depth) (m, w))) :
    (Ledger.ofTable m.table).Follows
        (p.log (Meaning.nested (perform code) depth) (history code depth) (m, w)) ∧
      ∀ i f, ((Ledger.ofTable m.table).notes
          (p.log (Meaning.nested (perform code) depth) (history code depth) (m, w))).held i =
            some f ↔
        (p.run (Meaning.nested (perform code) depth) (m, w)).2.1.table.idle? i = some f := by
  obtain ⟨hf, hs, hr⟩ :=
    ((Accounts.explains code).run depth p (m, w)).2 _ (Ledger.sound_ofTable m.table) hclear
  refine ⟨hf, fun i f => (hs.faithful i f).trans ?_⟩
  rw [hr]
  exact ⟨fun h => h.resolve_right List.not_mem_nil, .inl⟩

inductive Tenant where
  | guest
  | host
  | subletter
  deriving DecidableEq, Repr

def tenants : Tenant → List Value → HostProgram Tenant Unit Value
  | .guest, _ => pure .void
  | .host, _ => do
    let i ← Program.perform (.register (.custom .importOnly .guest))
    Program.perform (.release i)
    pure .void
  | .subletter, _ => do
    let i ← Program.perform (.register (.custom .importOnly .guest))
    Program.perform (.release i)
    let _ ← Program.perform (.register (.custom .kinded .guest))
    pure .void

def visit (t : Tenant) : HostProgram Tenant Unit Value := do
  let i ← Program.perform (.register (.custom .importOnly t))
  Program.perform (.invoke i [.void, .void, .void])

def vacant : Native Tenant Unit := load 0 ⟨⟨[]⟩, []⟩ ""

def visitLog (t : Tenant) : List (Record Tenant Unit) :=
  (visit t).log (Meaning.nested (perform tenants) 2) (history tenants 2) (vacant, ())

theorem handles_faithful_host :
    (Ledger.ofTable vacant.table).Clear (visitLog .host) ∧
      (Ledger.ofTable vacant.table).Follows (visitLog .host) ∧
      ∀ i f, ((Ledger.ofTable vacant.table).notes (visitLog .host)).held i = some f ↔
        ((visit .host).run (Meaning.nested (perform tenants) 2)
          (vacant, ())).2.1.table.idle? i = some f := by
  have hclear : (Ledger.ofTable vacant.table).Clear (visitLog .host) := by
    decide +kernel
  exact ⟨hclear, handles_faithful (visit .host) 2 vacant () hclear⟩

theorem exists_lost_registration :
    ((Ledger.ofTable vacant.table).notes (visitLog .subletter)).held 0 =
        some (.custom .kinded .guest) ∧
      ((Ledger.ofTable vacant.table).notes (visitLog .subletter)).running = [] ∧
      ((visit .subletter).run (Meaning.nested (perform tenants) 2) (vacant, ())).2.1.table =
        [.idle (.custom .importOnly .subletter)] ∧
      ¬ (Ledger.ofTable vacant.table).Follows (visitLog .subletter) := by
  refine ⟨rfl, rfl, rfl, fun h => ?_⟩
  have hlast := (h.2.2.2.2.2.1 0 (.custom .kinded .guest)).1 rfl
  rcases hlast with hlast | hlast
  · have hready : some (HostFunction.custom .importOnly Tenant.subletter) =
        some (HostFunction.custom .kinded Tenant.guest : HostFunction Tenant Unit) := hlast
    simp at hready
  · exact List.not_mem_nil hlast

end SolidityHost.Native
