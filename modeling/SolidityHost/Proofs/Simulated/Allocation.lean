import SolidityHost.Proofs.Simulated.Memory
import SolidityHost.Proofs.Simulated.Replies

/-!
# Blocks that are handed out

A caller gets memory from the heap of a simulated module, as a text that is put there, or from an
entry point that allocates. As long as everything fits the address space, every such demand is met
by a block of its own behind all that was in the heap before, and nothing that was there changes. A
reset gives up all blocks: no read and no write reaches one of them any more.
-/

set_option autoImplicit false

namespace SolidityHost

namespace Heap

def extent (e : Nat) : List Nat → Nat
  | [] => e
  | n :: rest => extent ((e + 7) / 8 * 8 + max n 1) rest

variable {h h' : Heap} {p : Word} {size : Nat}

theorem le_extent (e : Nat) (sizes : List Nat) : e ≤ extent e sizes := by
  induction sizes generalizing e with
  | nil => exact Nat.le_refl e
  | cons n rest ih =>
    have hrest := ih ((e + 7) / 8 * 8 + max n 1)
    rw [extent]
    omega

theorem dvd_next (h : Heap) : 8 ∣ h.next := Nat.dvd_mul_left _ _

theorem bytes_of_allocate? (ha : h.allocate? size = some (p, h')) :
    h'.bytes = h.bytes ++ List.replicate (h.next + max size 1 - h.size) 0 := by
  unfold allocate? at ha
  split at ha
  · obtain ⟨-, rfl⟩ := by simpa using ha
    rfl
  · contradiction

theorem stores_zeros_of_allocate? (ha : h.allocate? size = some (p, h')) :
    h'.Stores p.toNat (List.replicate (max size 1) 0) := by
  intro k hk
  rw [List.length_replicate] at hk
  have hp := (size_of_allocate? ha).1
  have hnext : h.bytes.length ≤ h.next := h.size_le_next
  have hsize : h.bytes.length = h.size := rfl
  rw [bytes_of_allocate? ha, hp, List.getElem?_append_right (by omega)]
  simp only [List.getElem?_replicate, hk, if_true]
  rw [if_pos (by omega)]

theorem Extends.prefix (he : h.Extends h') : h.bytes <+: h'.bytes := by
  rw [List.prefix_iff_getElem?]
  intro i hi
  rw [he i hi, List.getElem?_eq_getElem hi]

theorem Extends.size_le (he : h.Extends h') : h.size ≤ h'.size := he.prefix.length_le

theorem Extends.trans {h₀ : Heap} (he : h.Extends h') (he' : h'.Extends h₀) : h.Extends h₀ :=
  fun i hi => (he' i (Nat.lt_of_lt_of_le hi he.size_le)).trans (he i hi)

theorem not_holds_of_size_eq {count : Nat} (hs : h.size = base) (hc : 0 < count) :
    ¬ h.Holds p count := by
  rintro ⟨hlow, hhigh⟩
  omega

end Heap

def Op.Accesses {F : Type} : Op F → Prop
  | .readText _ => True
  | .readWord _ => True
  | .writeWord _ _ => True
  | .writeBytes _ bytes => bytes ≠ []
  | _ => False

namespace Simulated

open Program

variable {C σ : Type} {code : C → List Value → HostProgram C σ Value}
  {runner : Runner (HostFunction C σ) σ (Simulated C σ)} {m n : Simulated C σ}

inductive Demand where
  | block (size : Nat)
  | text (s : String)
  | entry (symbol : String) (argument : Value)
  deriving DecidableEq, Repr

namespace Demand

def program : Demand → HostProgram C σ Word
  | .block size => Program.perform (.allocate size)
  | .text s => Program.allocateText s
  | .entry symbol argument => do
    let v ← Program.perform (.call symbol [argument])
    Program.ofOutcome v.address

def programs : List Demand → HostProgram C σ (List Word)
  | [] => pure []
  | d :: rest => do
    let p ← d.program
    let blocks ← programs rest
    pure (p :: blocks)

def size : Demand → Nat
  | .block size => size
  | .text s => Utf8.width s + 1
  | .entry _ argument =>
    match argument.word with
    | .ok w => w.toNat
    | .error _ => 0

def contents : Demand → List UInt8
  | .text s => Utf8.encode s ++ [0]
  | d => List.replicate (max d.size 1) 0

def Answerable (m : Simulated C σ) : Demand → Prop
  | .entry symbol argument =>
    m.entries.lookup symbol = some .allocator ∧ ∃ w, argument.word = .ok w
  | _ => True

theorem length_contents (d : Demand) : d.contents.length = max d.size 1 := by
  cases d with
  | text s =>
    have hwidth : (Utf8.encode s).length = Utf8.width s := rfl
    simp [contents, size, hwidth]
  | _ => simp [contents]

end Demand

structure Grant where
  demand : Demand
  before : Heap
  block : Word
  after : Heap

namespace Grant

def stop (g : Grant) : Nat := g.block.toNat + max g.demand.size 1

/-- A block of its own, with everything else as it was. -/
structure Sound (g : Grant) : Prop where
  ne_null : g.block ≠ 0
  aligned : 8 ∣ g.block.toNat
  fresh : g.before.size ≤ g.block.toNat
  stop_le : g.stop ≤ g.after.size
  keeps : g.before.Extends g.after
  read?_eq : g.after.read? g.block (max g.demand.size 1) = some g.demand.contents

structure Next (g : Grant) : Prop where
  block_eq : g.block.toNat = g.before.next
  size_eq : g.after.size = g.before.next + max g.demand.size 1
  keeps : g.before.Extends g.after
  stores : g.after.Stores g.block.toNat g.demand.contents

variable {g : Grant}

theorem Next.sound (hg : g.Next) : g.Sound := by
  have hbase : 8 ≤ g.before.next := g.before.base_le_next
  have hblock := hg.block_eq
  have hstop : g.stop = g.after.size := by rw [stop, hblock, hg.size_eq]
  have hholds : g.after.Holds g.block g.demand.contents.length := by
    rw [Demand.length_contents]
    exact ⟨hblock ▸ hbase, Nat.le_of_eq hstop⟩
  have hread := Heap.read?_of_stores hg.stores hholds
  rw [Demand.length_contents] at hread
  refine ⟨?_, ?_, ?_, Nat.le_of_eq hstop, hg.keeps, hread⟩
  · intro hnull
    rw [hnull] at hblock
    have hzero : (0 : Word).toNat = 0 := rfl
    omega
  · exact hblock ▸ g.before.dvd_next
  · exact hblock ▸ g.before.size_le_next

theorem next_of_allocate? (ha : g.before.allocate? g.demand.size = some (g.block, g.after))
    (hc : g.demand.contents = List.replicate (max g.demand.size 1) 0) : g.Next where
  block_eq := (Heap.size_of_allocate? ha).1
  size_eq := (Heap.size_of_allocate? ha).2.1
  keeps := Heap.extends_of_allocate? ha
  stores := by
    rw [hc]
    exact Heap.stores_zeros_of_allocate? ha

theorem next_of_placed {s : String} (hd : g.demand = .text s)
    (hp : g.before.Placed s g.block g.after) : g.Next where
  block_eq := hp.address_eq
  size_eq := by
    have hsize : max (Utf8.width s + 1) 1 = Utf8.width s + 1 := by omega
    rw [hd, Demand.size, hsize]
    exact hp.size_eq
  keeps := hp.keeps
  stores := by
    rw [hd]
    exact hp.stores

end Grant

theorem run_entry {symbol : String} {v : Value} {size : Word}
    (he : m.entries.lookup symbol = some .allocator) (hrun : symbol ∉ m.running)
    (hv : v.word = .ok size) {p : Word} {heap : Heap}
    (ha : m.heap.allocate? size.toNat = some (p, heap)) (w : σ) :
    (Demand.entry symbol v).program.run (perform code runner) (m, w) =
      (.ok p, ({ m with heap }, w)) := by
  rw [Demand.program, bind_eq, run_bind, run_call, call_allocator (s := (m, w)) he hrun hv,
    allocate_of_some ha]
  rfl

theorem exists_grant (code : C → List Value → HostProgram C σ Value)
    (runner : Runner (HostFunction C σ) σ (Simulated C σ)) (hm : m.RunsCode) {d : Demand}
    (hd : d.Answerable m) (hr : m.heap.Room d.size) (w : σ) :
    ∃ g : Grant, g.demand = d ∧ g.before = m.heap ∧ g.Next ∧
      d.program.run (perform code runner) (m, w) =
        (.ok g.block, ({ m with heap := g.after }, w)) := by
  cases d with
  | block size =>
    obtain ⟨p, heap, ha⟩ := Heap.exists_allocate? hr
    refine ⟨⟨.block size, m.heap, p, heap⟩, rfl, rfl, Grant.next_of_allocate? ha rfl, ?_⟩
    rw [Demand.program, run_allocate, Simulated.allocate, show m.heap.allocate? size = _ from ha]
  | text s =>
    obtain ⟨p, heap, hrun, hp⟩ := run_allocateText_of_room (s := (m, w)) code runner hr
    exact ⟨⟨.text s, m.heap, p, heap⟩, rfl, rfl, Grant.next_of_placed rfl hp, hrun⟩
  | entry symbol v =>
    obtain ⟨he, size, hv⟩ := hd
    have hsize : (Demand.entry symbol v).size = size.toNat := by rw [Demand.size, hv]
    obtain ⟨p, heap, ha⟩ := Heap.exists_allocate? hr
    have hrun : symbol ∉ m.running := hm.notMem he (by simp)
    exact ⟨⟨.entry symbol v, m.heap, p, heap⟩, rfl, rfl, Grant.next_of_allocate? ha rfl,
      run_entry he hrun hv (hsize ▸ ha) w⟩

def Chained : Heap → List Grant → Heap → Prop
  | h, [], h' => h' = h
  | h, g :: rest, h' => g.before = h ∧ Chained g.after rest h'

/-- The blocks of some grants lie one behind the other, and all of them behind the old heap. -/
structure Laid (h : Heap) (grants : List Grant) (h' : Heap) : Prop where
  chained : Chained h grants h'
  sound : ∀ g ∈ grants, g.Sound
  apart : grants.Pairwise fun g g' => g.stop ≤ g'.block.toNat
  fresh : ∀ g ∈ grants, h.size ≤ g.block.toNat
  stop_le : ∀ g ∈ grants, g.stop ≤ h'.size
  keeps : h.Extends h'
  kept : ∀ g ∈ grants, g.before.Extends h' ∧ g.after.Extends h'

theorem Laid.nil (h : Heap) : Laid h [] h :=
  ⟨rfl, nofun, .nil, nofun, nofun, .refl h, nofun⟩

theorem Laid.cons {g : Grant} {grants : List Grant} {h' : Heap} (hg : g.Sound)
    (hl : Laid g.after grants h') : Laid g.before (g :: grants) h' where
  chained := ⟨rfl, hl.chained⟩
  sound := List.forall_mem_cons.2 ⟨hg, hl.sound⟩
  apart := List.pairwise_cons.2
    ⟨fun g' hg' => Nat.le_trans hg.stop_le (hl.fresh g' hg'), hl.apart⟩
  fresh := List.forall_mem_cons.2
    ⟨hg.fresh, fun g' hg' => Nat.le_trans hg.keeps.size_le (hl.fresh g' hg')⟩
  stop_le := List.forall_mem_cons.2 ⟨Nat.le_trans hg.stop_le hl.keeps.size_le, hl.stop_le⟩
  keeps := hg.keeps.trans hl.keeps
  kept := List.forall_mem_cons.2 ⟨⟨hg.keeps.trans hl.keeps, hl.keeps⟩, hl.kept⟩

theorem Demand.Answerable.withHeap {d : Demand} (hd : d.Answerable m) (heap : Heap) :
    d.Answerable ({ m with heap } : Simulated C σ) := by
  cases d with
  | entry symbol v => exact hd
  | _ => trivial

theorem exists_laid (code : C → List Value → HostProgram C σ Value)
    (runner : Runner (HostFunction C σ) σ (Simulated C σ)) (hm : m.RunsCode) {ds : List Demand}
    (hd : ∀ d ∈ ds, d.Answerable m)
    (hfit : Heap.extent m.heap.size (ds.map Demand.size) < Heap.limit) (w : σ) :
    ∃ grants heap, grants.map Grant.demand = ds ∧ Laid m.heap grants heap ∧
      (Demand.programs ds).run (perform code runner) (m, w) =
        (.ok (grants.map Grant.block), ({ m with heap }, w)) := by
  induction ds generalizing m with
  | nil => exact ⟨[], m.heap, rfl, .nil _, rfl⟩
  | cons d ds ih =>
    obtain ⟨hfirst, hrest⟩ := List.forall_mem_cons.1 hd
    rw [List.map_cons, Heap.extent] at hfit
    have hroom : m.heap.Room d.size := Nat.lt_of_le_of_lt (Heap.le_extent _ _) hfit
    obtain ⟨g, rfl, hbefore, hnext, hrun⟩ := exists_grant code runner hm hfirst hroom w
    have hsize : g.after.size = (m.heap.size + 7) / 8 * 8 + max g.demand.size 1 := by
      rw [hnext.size_eq, hbefore, Heap.next]
    obtain ⟨grants, heap, hdemands, hlaid, hruns⟩ := ih (m := { m with heap := g.after })
      (hm.congr rfl rfl) (fun d hd => (hrest d hd).withHeap _) (hsize ▸ hfit)
    refine ⟨g :: grants, heap, congrArg _ hdemands, hbefore ▸ hlaid.cons hnext.sound, ?_⟩
    rw [Demand.programs, bind_eq, run_bind, hrun]
    dsimp only
    rw [bind_eq, run_bind, hruns]
    rfl

theorem takeWhile_append_of_mem {bytes : List UInt8} (hz : 0 ∈ bytes) (rest : List UInt8) :
    (bytes ++ rest).takeWhile (· ≠ 0) = bytes.takeWhile (· ≠ 0) := by
  induction bytes with
  | nil => exact nomatch hz
  | cons b bytes ih =>
    by_cases hb : b = 0
    · simp [hb]
    · have hrest : 0 ∈ bytes := (List.mem_cons.1 hz).resolve_left (Ne.symm hb)
      rw [List.cons_append, List.takeWhile_cons_of_pos (by simpa using hb),
        List.takeWhile_cons_of_pos (by simpa using hb), ih hrest]

theorem readText_of_extends {h h' : Heap} (he : h.Extends h') {p : Word} {s : String}
    (hr : ({ m with heap := h } : Simulated C σ).readText p = .ok s) :
    ({ m with heap := h' } : Simulated C σ).readText p = .ok s := by
  unfold readText at hr ⊢
  dsimp only at hr ⊢
  split at hr
  · next hh =>
    obtain ⟨rest, hrest⟩ := he.prefix
    have htail : h'.tailFrom p = h.tailFrom p ++ rest := by
      have hle : p.toNat ≤ h.bytes.length := hh.2
      rw [Heap.tailFrom, ← hrest, List.drop_append_of_le_length hle, Heap.tailFrom]
    split at hr
    · next hz =>
      rw [if_pos (hh.mono he.size_le), htail, if_pos (List.mem_append_left rest hz),
        takeWhile_append_of_mem hz]
      exact hr
    · contradiction
  · contradiction

theorem readText_of_sound {g : Grant} (hg : g.Sound) {s : String} (hd : g.demand = .text s) :
    ({ m with heap := g.after } : Simulated C σ).readText g.block = .ok (Utf8.beforeZero s) := by
  have hstores := Heap.stores_of_read? hg.read?_eq
  rw [hd] at hstores
  have hbase : Heap.base ≤ g.block.toNat := Nat.le_trans g.before.base_le hg.fresh
  exact readText_of_stores hbase hstores

theorem access_refused (hs : m.heap.size = Heap.base) {o : Op (HostFunction C σ)} (ho : o.Accesses)
    (w : σ) : ∃ fault, perform code runner o (m, w) = (refuse fault, (m, w)) := by
  have outside {p : Word} {n : Nat} (hrange : o.range? = some (p, n)) (hn : 0 < n) :
      ∃ fault, perform code runner o (m, w) = (refuse fault, (m, w)) :=
    ⟨_, (perform_eq_outOfBounds_iff hrange).2 (Heap.not_holds_of_size_eq hs hn)⟩
  cases o with
  | readText p =>
    show ∃ fault, (m.readText p, (m, w)) = _
    unfold readText
    by_cases hh : m.heap.Holds p 0
    · have hle : m.heap.bytes.length ≤ p.toNat := Nat.le_trans (Nat.le_of_eq hs) hh.1
      have hnil : m.heap.tailFrom p = [] := List.drop_eq_nil_of_le hle
      rw [if_pos hh, hnil]
      exact ⟨.unterminated, rfl⟩
    · rw [if_neg hh]
      exact ⟨.outOfBounds, rfl⟩
  | readWord p => exact outside rfl (by decide)
  | writeWord p value => exact outside rfl (by decide)
  | writeBytes p bytes => exact outside rfl (List.length_pos_iff.2 ho)
  | _ => exact ho.elim

inductive Reached (code : C → List Value → HostProgram C σ Value) : Simulated C σ → Prop where
  | fresh (entries : List (String × Entry C)) : Reached code (ofEntries entries)
  | within {m : Simulated C σ} {α : Type} (h : Reached code m) (depth : Nat)
      (p : HostProgram C σ α) (w : σ) (x : Moment C σ)
      (hx : x ∈ p.log (Meaning.nested (perform code) depth) (moments code depth) (m, w)) :
    Reached code x.before.1
  | behind {m : Simulated C σ} {α : Type} (h : Reached code m) (depth : Nat)
      (p : HostProgram C σ α) (w : σ) :
    Reached code (p.run (Meaning.nested (perform code) depth) (m, w)).2.1

theorem keepsRunning_log {α : Type} (code : C → List Value → HostProgram C σ Value) (depth : Nat)
    (p : HostProgram C σ α) (s : Simulated C σ × σ) :
    KeepsRunning s.1 (p.log (Meaning.nested (perform code) depth) (moments code depth) s)
      (p.run (Meaning.nested (perform code) depth) s).2.1 :=
  KeepsRunning.sequential.program (fun o s => KeepsRunning.sequential.nested
    (fun _ _ hl o s => KeepsRunning.perform hl o s) depth o s) p s

theorem Reached.runsCode (h : Reached code m) : m.RunsCode := by
  induction h with
  | fresh entries => exact nofun
  | @within m α h depth p w x hx ih =>
    exact ((keepsRunning_log code depth p (m, w)).moments ih x hx).2
  | @behind m α h depth p w ih =>
    have hkeeps := keepsRunning_log code depth p (m, w)
    exact ih.congr hkeeps.entries_eq hkeeps.running_eq

/-- In a module that was reached, demands that fit the address space are met by aligned blocks of
their own, one behind the other and behind everything that was in the heap; nothing else changes, so
every text that could be read at some time still can. A built-in reset gives all of it up. -/
theorem demands_met (hm : Reached code m) {ds : List Demand} (hd : ∀ d ∈ ds, d.Answerable m)
    (hfit : Heap.extent m.heap.size (ds.map Demand.size) < Heap.limit) (depth : Nat) (w : σ) :
    ∃ grants heap, grants.map Grant.demand = ds ∧ Laid m.heap grants heap ∧
      (Demand.programs ds).run (Meaning.nested (perform code) depth) (m, w) =
        (.ok (grants.map Grant.block), ({ m with heap }, w)) ∧
      (∀ g ∈ grants, ∀ s, g.demand = .text s →
        ({ m with heap } : Simulated C σ).readText g.block = .ok (Utf8.beforeZero s)) ∧
      (∀ g ∈ grants, ∀ p s, ({ m with heap := g.before } : Simulated C σ).readText p = .ok s →
        ({ m with heap } : Simulated C σ).readText p = .ok s) ∧
      ∀ symbol args, m.IsReset symbol →
        ∃ n, Meaning.nested (perform code) depth (.call symbol args) ({ m with heap }, w) =
            (.ok .void, (n, w)) ∧
          ∀ o : Op (HostFunction C σ), o.Accesses →
            ∃ fault, Meaning.nested (perform code) depth o (n, w) = (refuse fault, (n, w)) := by
  obtain ⟨runner, hrunner, -⟩ := nested_eq_perform code depth
  rw [hrunner]
  obtain ⟨grants, heap, hdemands, hlaid, hrun⟩ := exists_laid code runner hm.runsCode hd hfit w
  refine ⟨grants, heap, hdemands, hlaid, hrun, fun g hg s hs => ?_, fun g hg p s hs => ?_,
    fun symbol args hs => ?_⟩
  · exact readText_of_extends (hlaid.kept g hg).2 (readText_of_sound (hlaid.sound g hg) hs)
  · exact readText_of_extends (hlaid.kept g hg).1 hs
  · have hidle : symbol ∉ m.running := hm.runsCode.notMem hs (by simp)
    exact ⟨_, call_reset (s := ({ m with heap }, w)) hs hidle args,
      fun o ho => access_refused heap.size_reset ho w⟩

def bareEntries : List (String × Entry Empty) := [("malloc", .allocator), ("reset", .reset)]

def mixedDemands : List Demand :=
  [.block 0, .text "é", .entry "malloc" (.bool true), .entry "malloc" (.pointer 9)]

def soil : HostProgram Empty Unit Value := do
  let p ← Program.perform (.allocate 3)
  Program.perform (.writeBytes p [1, 2, 3])
  Program.perform (.call "reset" [])

def soiled : Simulated Empty Unit :=
  (soil.run (Meaning.nested (perform fun k _ => k.elim) 3) (ofEntries bareEntries, ())).2.1

theorem demands_met_soiled :
    ((Demand.programs mixedDemands).run
        (Meaning.nested (perform fun k _ => k.elim) 3) (soiled, ())).1 = .ok [8, 16, 24, 32] ∧
    ∃ grants heap, grants.map Grant.demand = mixedDemands ∧ Laid soiled.heap grants heap ∧
      (∀ g ∈ grants, ∀ s, g.demand = .text s →
        ({ soiled with heap } : Simulated Empty Unit).readText g.block =
          .ok (Utf8.beforeZero s)) ∧
      ∃ n, Meaning.nested (perform fun k _ => k.elim) 3 (.call "reset" [])
          ({ soiled with heap }, ()) = (.ok .void, (n, ())) ∧
        ∀ o : Op (HostFunction Empty Unit), o.Accesses →
          ∃ fault, Meaning.nested (perform fun k _ => k.elim) 3 o (n, ()) =
            (refuse fault, (n, ())) := by
  have hreached : Reached (fun k _ => k.elim) soiled := .behind (.fresh bareEntries) 3 soil ()
  have hmalloc : soiled.entries.lookup "malloc" = some .allocator := rfl
  have hanswerable : ∀ d ∈ mixedDemands, d.Answerable soiled := by
    simp [mixedDemands, Demand.Answerable, hmalloc, Value.word]
  obtain ⟨grants, heap, hdemands, hlaid, -, htexts, -, hreset⟩ :=
    demands_met hreached hanswerable (by decide +kernel) 3 ()
  exact ⟨by decide +kernel, grants, heap, hdemands, hlaid, htexts, hreset "reset" [] rfl⟩

end Simulated

end SolidityHost
