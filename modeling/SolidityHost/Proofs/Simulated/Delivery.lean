import SolidityHost.Proofs.Simulated.Question
import SolidityHost.Proofs.Simulated.Text

/-!
# Delivery of a reply

A reply of a handler goes into a fresh block, and the address of the block into the out slot of its
kind; the slot of the other kind and everything else in the heap stay as they were. If the slot
cannot take the address or the block does not fit, the callback fails, and then nothing that was in
the heap has changed.
-/

set_option autoImplicit false

namespace SolidityHost

open Program

variable {C σ : Type}

namespace Reply

def text : Reply → String
  | .contents text => text
  | .error text => text

def slot (contents error : Word) : Reply → Word
  | .contents _ => contents
  | .error _ => error

def otherSlot (contents error : Word) : Reply → Word
  | .contents _ => error
  | .error _ => contents

end Reply

namespace Simulated

variable {code : C → List Value → HostProgram C σ Value}
  {runner : Runner (HostFunction C σ) σ (Simulated C σ)} {m : Simulated C σ}
  {c : Primitives} {protocol : Protocol} {args : List Value} {q : Question}
  {contents error : Word} {reply : Reply} {w w' : σ}

theorem run_deliver (c : Primitives) (reply : Reply) (contents error : Word)
    (s : Simulated C σ × σ) :
    (Callback.deliver c reply (.pointer contents) (.pointer error) : HostProgram C σ Value).run
        (perform code runner) s =
      (((c.copyText reply.text (reply.slot contents error)).run (perform code runner) s).1.map
          fun _ => .void,
        ((c.copyText reply.text (reply.slot contents error)).run (perform code runner) s).2) := by
  have hend (p : HostProgram C σ Unit) :
      (p.bind fun _ => pure Value.void).run (perform code runner) s =
        ((p.run (perform code runner) s).1.map fun _ => .void,
          (p.run (perform code runner) s).2) := by
    rw [run_bind]
    obtain ⟨failure | _, t⟩ := p.run (perform code runner) s <;> rfl
  cases reply with
  | contents text => exact hend (c.copyText text contents)
  | error text => exact hend (c.copyText text error)

theorem Poses.run_callback (hq : m.Poses protocol args q) {handlers : Handlers σ}
    (hreply : handlers.answer q.kind q.data w = (.ok reply, w')) :
    ((HostFunction.callbacks protocol c handlers).program code args).run (perform code runner)
        (m, w) =
      (Callback.deliver c reply q.contents q.error).run (perform code runner) (m, w') := by
  rw [(Poses.alike (s := (m, w)) hq c handlers).run_eq, run_serve, hreply]

/-- How the delivery of a reply ends, and what it leaves in the heap. -/
structure Delivery (h : Heap) (reply : Reply) (contents error : Word) (r : Outcome Value)
    (h' : Heap) : Prop where
  delivered : h.Room (Utf8.width reply.text + 1) → h.Holds (reply.slot contents error) Word.size →
    r = .ok .void ∧ ∃ block, h.Delivered reply.text (reply.slot contents error) block h'
  other_eq : h.Room (Utf8.width reply.text + 1) → h.Holds contents Word.size →
    h.Holds error Word.size →
    contents.toNat + Word.size ≤ error.toNat ∨ error.toNat + Word.size ≤ contents.toNat →
    h'.readWord? (reply.otherSlot contents error) = h.readWord? (reply.otherSlot contents error)
  noSlot : h.Room (Utf8.width reply.text + 1) → ¬ h'.Holds (reply.slot contents error) Word.size →
    r = refuse .outOfBounds ∧ h.Extends h'
  noRoom : ¬ h.Room (Utf8.width reply.text + 1) → (∃ failure, r = .error failure) ∧ h.Extends h'

theorem Delivery.of_delivered {h h' : Heap} {block : Word}
    (hr : h.Room (Utf8.width reply.text + 1))
    (hh : h'.Holds (reply.slot contents error) Word.size)
    (hd : h.Holds (reply.slot contents error) Word.size →
      h.Delivered reply.text (reply.slot contents error) block h') :
    Delivery h reply contents error (.ok .void) h' where
  delivered _ hslot := ⟨rfl, block, hd hslot⟩
  other_eq _ hcontents herror hapart := by
    cases reply with
    | contents text => exact (hd hcontents).readWord?_other herror hapart.symm
    | error text => exact (hd herror).readWord?_other hcontents hapart
  noSlot _ hn := absurd hh hn
  noRoom hn := absurd hr hn

theorem Delivery.of_noSlot {h h' : Heap} (hr : h.Room (Utf8.width reply.text + 1))
    (hle : h.size ≤ h'.size) (hn : ¬ h'.Holds (reply.slot contents error) Word.size)
    (he : h.Extends h') : Delivery h reply contents error (refuse .outOfBounds) h' where
  delivered _ hslot := absurd (hslot.mono hle) hn
  other_eq _ hcontents herror _ := by
    cases reply with
    | contents text => exact absurd (hcontents.mono hle) hn
    | error text => exact absurd (herror.mono hle) hn
  noSlot _ _ := ⟨rfl, he⟩
  noRoom hn := absurd hr hn

theorem exists_delivery (hc : c.AllocatesIn m) (code : C → List Value → HostProgram C σ Value)
    (runner : Runner (HostFunction C σ) σ (Simulated C σ)) (reply : Reply) (contents error : Word)
    (w : σ) :
    ∃ r heap, (Callback.deliver c reply (.pointer contents) (.pointer error) :
        HostProgram C σ Value).run (perform code runner) (m, w) = (r, ({ m with heap }, w)) ∧
      Delivery m.heap reply contents error r heap := by
  rw [run_deliver]
  by_cases hr : m.heap.Room (Utf8.width reply.text + 1)
  · obtain ⟨block, h₁, hplaced, hrun⟩ := Primitives.run_copyText_of_room (s := (m, w)) hc code runner
      hr (reply.slot contents error)
    have hword : block.toBytes.length = Word.size := Word.length_toBytes block
    rw [hrun]
    -- a slot outside of the heap may lie in the fresh block, so it is judged behind the allocation
    by_cases hslot : h₁.Holds (reply.slot contents error) Word.size
    · obtain ⟨h₂, hwrite, hsize⟩ := Heap.exists_write? h₁ _ block.toBytes (hword ▸ hslot)
      have hdelivered (hold : m.heap.Holds (reply.slot contents error) Word.size) :
          m.heap.Delivered reply.text (reply.slot contents error) block h₂ :=
        hplaced.delivered (Nat.le_trans hold.2 m.heap.size_le_next) hwrite
      refine ⟨.ok .void, h₂, by rw [writeBytes_of_some hwrite]; rfl, ?_⟩
      exact .of_delivered hr (hslot.mono (Nat.le_of_eq hsize.symm)) hdelivered
    · refine ⟨_, h₁, by rw [writeBytes_of_none (Heap.write?_eq_none (hword ▸ hslot))]; rfl,
        .of_noSlot hr ?_ hslot hplaced.keeps⟩
      rw [hplaced.size_eq]
      exact Nat.le_add_right_of_le m.heap.size_le_next
  · obtain ⟨failure, heap, hkeep, hrun⟩ := Primitives.run_copyText_of_noRoom (s := (m, w)) hc code
      runner hr (reply.slot contents error)
    rw [hrun]
    exact ⟨.error failure, heap, rfl, fun h => absurd h hr, fun h => absurd h hr,
      fun h => absurd h hr, fun _ => ⟨⟨failure, rfl⟩, hkeep⟩⟩

/-- The reply to a callback's question reaches the out slot of its kind, or the callback fails and
changes nothing that was in the heap. -/
theorem reply_delivered (hc : c.AllocatesIn m) (code : C → List Value → HostProgram C σ Value)
    (runner : Runner (HostFunction C σ) σ (Simulated C σ)) (handlers : Handlers σ)
    (hq : m.Poses protocol args q) (hcontents : q.contents = .pointer contents)
    (herror : q.error = .pointer error)
    (hreply : handlers.answer q.kind q.data w = (.ok reply, w')) :
    ∃ r heap, ((HostFunction.callbacks protocol c handlers).program code args).run
        (perform code runner) (m, w) = (r, ({ m with heap }, w')) ∧
      Delivery m.heap reply contents error r heap := by
  rw [hq.run_callback hreply, hcontents, herror]
  exact exists_delivery hc code runner reply contents error w'

def asking : Simulated Empty Unit :=
  { (ofEntries [("malloc", .allocator)] : Simulated Empty Unit) with
    heap := ⟨List.replicate 8 0 ++ 97 :: List.replicate 23 0, by decide, by decide⟩ }

def doubling : Handlers Unit := ⟨some fun path w => (.ok (.contents (path ++ path)), w), none⟩

theorem reply_delivered_asking :
    asking.Poses .importOnly [.pointer 8, .pointer 16, .pointer 24]
        ⟨.source, "a", .pointer 16, .pointer 24⟩ ∧
      ∃ heap block, ((HostFunction.callbacks .importOnly ⟨"version", none, .entry "malloc", none⟩
            doubling).program (fun k _ => k.elim) [.pointer 8, .pointer 16, .pointer 24]).run
          (perform (fun k _ => k.elim) fun _ s => (.ok .void, s)) (asking, ()) =
            (.ok .void, ({ asking with heap }, ())) ∧
        asking.heap.Delivered "aa" 16 block heap ∧
          heap.readWord? 24 = asking.heap.readWord? 24 := by
  have hc : Primitives.AllocatesIn ⟨"version", none, .entry "malloc", none⟩ asking := by
    intro symbol hsymbol
    obtain rfl := Allocator.entry.inj hsymbol
    exact ⟨rfl, List.not_mem_nil⟩
  have hq : asking.Poses .importOnly [.pointer 8, .pointer 16, .pointer 24]
      ⟨.source, "a", .pointer 16, .pointer 24⟩ := .importOnly (by rfl)
  obtain ⟨r, heap, hrun, hd⟩ := reply_delivered hc (fun k _ => k.elim)
    (fun _ s => (.ok .void, s)) doubling hq rfl rfl rfl
  obtain ⟨rfl, block, hblock⟩ := hd.delivered (by decide) (by decide)
  exact ⟨hq, heap, block, hrun, hblock, hd.other_eq (by decide) (by decide) (by decide) (by decide)⟩

end Simulated

end SolidityHost
