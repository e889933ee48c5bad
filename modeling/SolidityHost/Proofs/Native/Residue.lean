import SolidityHost.Native.Sample
import SolidityHost.Proofs.Callback.EntryRun
import SolidityHost.Proofs.Host.Table
import SolidityHost.Proofs.Native.History

/-!
# What entry runs leave in the table of a native module

A function that registers and releases nothing leaves the table as it is, and so does native code
that calls back only such functions. So when an entry run releases the slot of its callbacks, the
slot is the last one, and the table is what it was before. It ends in a function then, because every
table does that no program works on.
-/

set_option autoImplicit false

namespace SolidityHost.Native

open Program

variable {C σ α : Type} {code : C → List Value → HostProgram C σ Value}
  {runner : Runner (HostFunction C σ) σ (Native C σ)} {m n : Native C σ}

/-- What happens to a table keeps it from ending in an empty slot, and leaves no function running
that did not run before. -/
structure Settles (m n : Native C σ) : Prop where
  tight : m.table.Tight → n.table.Tight
  running : ∀ i, (n.table.running? i).isSome → (m.table.running? i).isSome

namespace Settles

theorem of_eq (h : n.table = m.table) : Settles m n := by
  refine ⟨?_, ?_⟩ <;> rw [h] <;> simp

theorem trans {k : Native C σ} (h : Settles m n) (h' : Settles n k) : Settles m k :=
  ⟨fun ht => h'.tight (h.tight ht), fun i hi => h.running i (h'.running i hi)⟩

theorem register (m : Native C σ) (f : HostFunction C σ) :
    Settles m { m with table := m.table.add f } where
  tight _ := Table.tight_concat _ (by simp)
  running i hi := by simpa using hi

theorem release (m : Native C σ) (slot : Nat) :
    Settles m { m with table := (m.table.clear slot).shrink } where
  tight _ := Table.tight_shrink _
  running i hi := by
    have hclear := Table.running?_of_shrink hi
    rw [Table.running?_clear] at hclear
    split at hclear
    · contradiction
    · exact hclear

theorem invoke {slot : Nat} {f : HostFunction C σ} (hf : m.table.idle? slot = some f)
    (h : Settles (m.checkOut slot f) n) : Settles m (n.restore slot f) where
  tight ht := (h.tight (ht.set (x := .running f) nofun slot)).restore slot f
  running i hi := by
    rw [restore, Table.running?_restore] at hi
    split at hi
    · contradiction
    · next hne =>
      have hin := h.running i hi
      rwa [checkOut, Table.running?_checkOut _ _ _ (Table.lt_of_idle? hf), if_neg hne] at hin

theorem explains (code : C → List Value → HostProgram C σ Value) :
    Explains code fun m (_ : List (Record C σ)) n => Settles m n where
  nil _ := of_eq rfl
  append := trans
  memory _ _ := of_eq rfl
  register := register
  release _ := release _ _
  invoke := invoke
  ignored _ _ := of_eq rfl
  answered := by
    intro d l hd _ h
    refine h.trans (of_eq ?_)
    rw [Dispatch.after_of_heeded hd]
  call _ h := ⟨fun ht => by rw [table_exit]; exact h.tight ht, fun i hi => h.running i (by
    rwa [table_exit] at hi)⟩

end Settles

inductive Reached (code : C → List Value → HostProgram C σ Value) : Native C σ → Prop where
  | load (identity : Nat) (library : Library) (symbolPrefix : String) :
    Reached code (load identity library symbolPrefix)
  | run {m : Native C σ} {α : Type} (h : Reached code m) (p : HostProgram C σ α) (depth : Nat)
      (w : σ) : Reached code (p.run (Meaning.nested (perform code) depth) (m, w)).2.1

theorem Reached.settled (h : Reached code m) : m.table.Settled := by
  induction h with
  | load identity library symbolPrefix => exact ⟨by simp [Table.Tight, Native.load], fun _ => rfl⟩
  | @run m α h p depth w ih =>
    have hs := ((Settles.explains code).run depth p (m, w)).2
    refine ⟨hs.tight ih.tight, fun i => ?_⟩
    rw [← Option.not_isSome_iff_eq_none]
    intro hi
    have hrun := hs.running i hi
    rw [ih.running?_eq i] at hrun
    contradiction

def Tame (code : C → List Value → HostProgram C σ Value) (t : Table (HostFunction C σ)) : Prop :=
  ∀ i f, t.idle? i = some f → ∀ args, (f.program code args).Confined (Op.Avoids fun _ => False)

theorem Tame.add {t : Table (HostFunction C σ)} (ht : Tame code t) {f : HostFunction C σ}
    (hf : ∀ args, (f.program code args).Confined (Op.Avoids fun _ => False)) :
    Tame code (t.add f) := by
  intro i g hg
  rw [Table.idle?_add] at hg
  split at hg
  · obtain rfl := Option.some.inj hg
    exact hf
  · exact ht i g hg

theorem tame_of_code (hcode : ∀ k args, (code k args).Confined (Op.Avoids fun _ => False))
    (t : Table (HostFunction C σ)) : Tame code t := by
  intro i f _ args
  cases f with
  | custom protocol k =>
    unfold HostFunction.program
    split
    · exact hcode k args
    · exact .ofOutcome _
  | callbacks protocol c handlers =>
    exact HostFunction.callbacks_confined (fun _ _ => not_false) protocol handlers code args

def Preserves (code : C → List Value → HostProgram C σ Value)
    (runner : Runner (HostFunction C σ) σ (Native C σ)) : Prop :=
  ∀ (p : HostProgram C σ Value) s, p.Confined (Op.Avoids fun _ => False) →
    Tame code s.1.table → (runner p s).2.1.table = s.1.table

section

variable (hr : Preserves code runner) {s : Native C σ × σ} (ht : Tame code s.1.table)

include hr ht

theorem table_invoke (slot : Nat) (args : List Value) :
    (invoke code runner slot args s).2.1.table = s.1.table := by
  unfold invoke HostFunction.invoke
  split
  · rfl
  · next f hf =>
    have hout := hr (f.program code args) (s.1.checkOut slot f, s.2) (ht slot f hf args)
      fun i g hg => ht i g (Table.idle?_of_checkOut hg)
    exact (congrArg (Table.restore · slot f) hout).trans (Table.restore_checkOut hf)

theorem table_dispatch (protocol : Protocol) (args : List Word) :
    (dispatch code runner protocol args s).1.table = s.1.table := by
  have hanswer : (answer code runner protocol args s).2.1.table = s.1.table := by
    unfold answer
    split
    · exact table_invoke hr ht _ _
    · rfl
  unfold dispatch
  split
  · revert hanswer
    rcases answer code runner protocol args s with ⟨_ | _, n, w⟩ <;> exact id
  · rfl

theorem table_execute (c : Code α) : (execute code runner c s).2.1.table = s.1.table := by
  induction c generalizing s with
  | finish a => rfl
  | memory change next ih =>
    exact ih s.1.memory (s := ({ s.1 with memory := change s.1.memory }, s.2)) ht
  | callback protocol args next ih =>
    have hd := table_dispatch hr ht protocol args
    exact (ih (s := dispatch code runner protocol args s) (hd ▸ ht)).trans hd

theorem table_call (symbol : String) (args : List Value) :
    (call code runner symbol args s).2.1.table = s.1.table := by
  cases hc : s.1.entered? symbol args with
  | none =>
    obtain h | h := state_call_of_none code runner s hc <;> rw [h]
    rw [table_exit]
    rfl
  | some c =>
    rw [call_of_some code runner s hc rfl, table_exit]
    exact table_execute hr (s := (s.1.enter, s.2)) ht c

theorem table_perform {o : Op (HostFunction C σ)} (ho : o.Avoids fun _ => False) :
    (perform code runner o s).2.1.table = s.1.table := by
  cases o with
  | call symbol args => exact table_call hr ht symbol args
  | invoke slot args => exact table_invoke hr ht slot args
  | register f => exact ho.elim
  | release slot => exact ho.elim
  | allocate size =>
    show (s.1.allocate size).2.table = _
    unfold Native.allocate
    split <;> rfl
  | writeBytes p bytes =>
    show (s.1.writeBytes p bytes).2.table = _
    unfold Native.writeBytes
    split <;> rfl
  | writeWord p value =>
    show (s.1.writeBytes p value.toBytes).2.table = _
    unfold Native.writeBytes
    split <;> rfl
  | _ => rfl

theorem table_run {p : HostProgram C σ α} (hp : p.Confined (Op.Avoids fun _ => False)) :
    (p.run (perform code runner) s).2.1.table = s.1.table :=
  hp.run (P := fun n : Native C σ => n.table = s.1.table)
    (fun _ _ ho h => (table_perform hr (h ▸ ht) ho).trans h) rfl

end

theorem exists_preserving (code : C → List Value → HostProgram C σ Value) (depth : Nat) :
    ∃ runner, Meaning.nested (perform code) depth = perform code runner ∧
      Preserves code runner := by
  induction depth with
  | zero => exact ⟨_, rfl, fun _ _ _ _ => rfl⟩
  | succ depth ih =>
    obtain ⟨runner, heq, hr⟩ := ih
    refine ⟨_, rfl, fun p s hp ht => ?_⟩
    rw [heq]
    exact table_run hr ht hp

theorem table_release {t : Table (HostFunction C σ)} (ht : t.Settled) {f : HostFunction C σ}
    (hm : m.table = t.add f) : (m.release t.length).2.table = t := by
  have hidle : m.table.idle? t.length = some f := by simp [hm]
  rw [release, hidle]
  show (m.table.clear t.length).shrink = t
  rw [hm, ht.shrink_clear_add]

section

variable (hr : Preserves code runner) {s : Native C σ × σ} (ht : Tame code s.1.table)
  (hs : s.1.table.Settled)

include hr ht hs

theorem table_withSlot {f : HostFunction C σ} {body : Nat → HostProgram C σ α}
    (hf : ∀ args, (f.program code args).Confined (Op.Avoids fun _ => False))
    (hb : ∀ slot, (body slot).Confined (Op.Avoids fun _ => False)) :
    ((EntryRun.withSlot f body).run (perform code runner) s).2.1.table = s.1.table := by
  have hregister : (Program.perform (.register f) : HostProgram C σ Nat).run
      (perform code runner) s = ((s.1.register f).1, ((s.1.register f).2, s.2)) := rfl
  rw [EntryRun.withSlot, bind_eq, run_bind, hregister, register]
  by_cases hroom : s.1.table.length < Table.capacity
  · rw [if_pos hroom]
    dsimp only
    rw [bind_eq, run_bind, run_attempt]
    have hbody := table_run hr (s := ({ s.1 with table := s.1.table.add f }, s.2)) (ht.add hf)
      (hb s.1.table.length)
    revert hbody
    rcases (body s.1.table.length).run (perform code runner)
      ({ s.1 with table := s.1.table.add f }, s.2) with ⟨r, n, w⟩
    intro hbody
    have hrelease := table_release hs hbody
    -- however the body ended, what is left to be done is the release
    cases r with
    | ok a =>
      apply run_bind_keeps (P := fun n : Native C σ => n.table = s.1.table)
      · exact hrelease
      · exact fun _ _ hu => hu
    | error failure =>
      apply run_bind_keeps (P := fun n : Native C σ => n.table = s.1.table)
      · rw [run_attempt]
        exact hrelease
      · exact fun _ _ hu => hu
  · rw [if_neg hroom]
    rfl

theorem table_body (c : Primitives) (symbol : String) (args : List Value)
    (service : Option (CallbackService σ)) :
    ((EntryRun.body c symbol args service).run (perform code runner) s).2.1.table = s.1.table := by
  cases service with
  | none => exact table_run hr ht (EntryRun.callText_confined not_false fun _ => trivial)
  | some service =>
    apply table_withSlot hr ht hs
    · exact HostFunction.callbacks_confined (fun _ _ => not_false) _ _ code
    · exact fun slot => EntryRun.callText_confined not_false fun _ => trivial

theorem table_entryRun (c : Primitives) (symbol input : String) (extra : List Value)
    (service : Option (CallbackService σ)) :
    ((EntryRun.run c symbol input extra service).run (perform code runner) s).2.1.table =
      s.1.table := by
  rw [EntryRun.run_eq]
  apply run_bind_keeps (P := fun n : Native C σ => n.table = s.1.table)
  · exact table_run hr ht (EntryRun.allocateText_confined (fun _ => trivial) (fun _ _ => trivial) _)
  · intro buffer u hu
    apply run_bind_keeps (P := fun n : Native C σ => n.table = s.1.table)
    · rw [run_attempt, ← hu]
      exact table_body hr (hu ▸ ht) (hu ▸ hs) c symbol _ service
    · intro outcome v hv
      rw [← hv]
      exact table_run hr (hv ▸ ht)
        (EntryRun.cleanUp_confined (fun _ => trivial) (fun _ _ => not_false) buffer outcome)

end

/-- An entry run leaves the table of a module as it found it, however it ends, if the functions that
were there register and release nothing. No function runs then, and the table does not end in an
empty slot. -/
theorem entryRun_keeps_table (hm : Reached code m) (ht : Tame code m.table) (c : Primitives)
    (symbol input : String) (extra : List Value) (service : Option (CallbackService σ))
    (depth : Nat) (w : σ) :
    ((EntryRun.run c symbol input extra service).run (Meaning.nested (perform code) depth)
        (m, w)).2.1.table = m.table ∧ m.table.Settled := by
  obtain ⟨runner, hrunner, hr⟩ := exists_preserving code depth
  rw [hrunner]
  exact ⟨table_entryRun hr (s := (m, w)) ht hm.settled c symbol input extra service, hm.settled⟩

def chatty : Library where
  memory := .ofSize 8
  entries := [
    ("alloc", fun args =>
      .callback .kinded [0, 0, 0, 0, 0] (Code.allocate (Sample.arg args 0).toNat)),
    ("compile", fun args => do
      let (contents, error) ← Sample.newOuts
      Code.callAddress (Sample.arg args 1) [Sample.arg args 0, contents, error]
      Code.readWord contents)]

def attended : Native Unit Unit :=
  ((Program.perform (.register (.custom .kinded ())) : HostProgram Unit Unit Nat).run
    (Meaning.nested (perform fun _ _ => pure .void) 0) (load 0 chatty "", ())).2.1

def consult (answer : String → Except Abort Reply) : HostProgram Unit Unit String :=
  EntryRun.run ⟨"version", none, .entry "alloc", none⟩ "compile" "a.sol" []
    (some ⟨.importOnly, ⟨some fun path w => (answer path, w), none⟩⟩)

theorem entryRun_keeps_table_attended :
    Reached (fun _ _ => pure .void) attended ∧
      Tame (fun _ _ => pure .void) attended.table ∧
      attended.table = [.idle (.custom .kinded ())] ∧
      ((consult fun path => .ok (.contents ("seen " ++ path))).run
        (Meaning.nested (perform fun _ _ => pure .void) 3) (attended, ())).1 = .ok "seen a.sol" ∧
      ((consult fun _ => .error (.raised "lost")).run
        (Meaning.nested (perform fun _ _ => pure .void) 3) (attended, ())).1 =
          .error (.abort (.raised "lost")) ∧
      ∀ answer, ((consult answer).run (Meaning.nested (perform fun _ _ => pure .void) 3)
          (attended, ())).2.1.table = attended.table ∧ attended.table.Settled := by
  have hreached : Reached (fun _ _ => pure .void) attended := .run (.load ..) ..
  have htame : Tame (fun _ _ => pure .void) attended.table := tame_of_code (fun _ _ => .pure _) _
  refine ⟨hreached, htame, rfl, by decide +kernel, by decide +kernel, fun answer => ?_⟩
  unfold consult
  exact entryRun_keeps_table hreached htame _ _ _ _ _ 3 ()

end SolidityHost.Native
