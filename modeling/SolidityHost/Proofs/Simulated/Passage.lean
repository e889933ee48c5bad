import SolidityHost.Proofs.Callback.Outcome
import SolidityHost.Proofs.Simulated.Delivery

/-!
# Texts at the border

Every text that a host hands to a module is written with its length, and is read up to its first
zero byte: the input of an entry run, and the reply to a callback. So a text arrives as it was
exactly if it has no zero character; the rest of any other text is lost without an error.
-/

set_option autoImplicit false

namespace SolidityHost

open Program

variable {C F σ S α : Type}

namespace Simulated

variable {code : C → List Value → HostProgram C σ Value}
  {runner : Runner (HostFunction C σ) σ (Simulated C σ)} {c : Primitives} {text symbol : String}
  {args : List Value} {s t : Simulated C σ × σ}

theorem of_call_mem_withSlot {f : HostFunction C σ} {body : Nat → HostProgram C σ α}
    (h : (.call symbol args, t) ∈ (EntryRun.withSlot f body).trace (perform code runner) s) :
    (.call symbol args, t) ∈
      (body s.1.table.length).trace (perform code runner) (s.1.withFunction f, s.2) := by
  obtain ⟨slot, u, hf, hbody⟩ := EntryRun.of_call_mem_registered h
  by_cases hroom : s.1.table.length < Table.capacity
  · rw [run_register_of_lt hroom] at hf
    obtain ⟨hslot, rfl⟩ := Prod.mk.inj hf
    obtain rfl := Except.ok.inj hslot
    exact hbody
  · rw [run_register, Simulated.register, if_neg hroom] at hf
    cases (Prod.mk.inj hf).1

/-- Until an entry point is called, the heap stays as the input left it. -/
theorem of_call_mem_body {service : Option (CallbackService σ)} {args' : List Value}
    (h : (.call symbol args', t) ∈
      (EntryRun.body c symbol args service).trace (perform code runner) s) :
    (∃ rest, args' = args ++ rest) ∧ t.1.heap = s.1.heap := by
  cases service with
  | none =>
    obtain ⟨rfl, rfl⟩ := EntryRun.of_call_mem_callText h
    exact ⟨⟨[], (List.append_nil _).symm⟩, rfl⟩
  | some service =>
    obtain ⟨rfl, rfl⟩ := EntryRun.of_call_mem_callText (of_call_mem_withSlot h)
    exact ⟨⟨_, rfl⟩, rfl⟩

theorem of_call_mem_run {extra : List Value} {service : Option (CallbackService σ)}
    (hreset : c.reset ≠ some symbol)
    (h : (.call symbol args, t) ∈
      (EntryRun.run c symbol text extra service).trace (perform code runner) s) :
    ∃ buffer heap, (Program.allocateText text : HostProgram C σ Word).run (perform code runner) s =
        (.ok buffer, ({ s.1 with heap }, s.2)) ∧
      (∃ rest, args = .pointer buffer :: (extra ++ rest)) ∧ t.1.heap = heap := by
  obtain ⟨buffer, u, hb, hbody⟩ := EntryRun.of_call_mem hreset h
  obtain ⟨-, hrun⟩ | ⟨buffer', heap, hrun⟩ := run_allocateText code runner s text
  · exact nomatch (Prod.mk.inj (hb.symm.trans hrun)).1
  · obtain ⟨hbuffer, rfl⟩ := Prod.mk.inj (hb.symm.trans hrun)
    obtain rfl := Except.ok.inj hbuffer
    obtain ⟨hargs, hheap⟩ := of_call_mem_body hbody
    exact ⟨buffer, heap, hrun, hargs, hheap⟩

theorem readText_congr {m n : Simulated C σ} (h : m.heap = n.heap) (p : Word) :
    m.readText p = n.readText p := by
  rw [readText, readText, h]

theorem readText_of_allocateText {p : Word}
    (h : (Program.allocateText text : HostProgram C σ Word).run (perform code runner) s =
      (.ok p, t)) : t.1.readText p = .ok (Utf8.beforeZero text) := by
  by_cases hr : s.1.heap.Room (Utf8.width text + 1)
  · obtain ⟨buffer, heap, hrun, hplaced⟩ := run_allocateText_of_room code runner hr
    obtain ⟨hp, rfl⟩ := Prod.mk.inj (hrun.symm.trans h)
    obtain rfl := Except.ok.inj hp
    exact readText_of_placed hplaced
  · rw [run_allocateText_of_noRoom hr] at h
    exact nomatch (Prod.mk.inj h).1

def Shows (m : Simulated C σ) (out : Word) (text : String) : Prop :=
  ∃ p, m.readWord out = .ok p ∧ m.readText p = .ok text

theorem shows_of_delivered {heap : Heap} {out block : Word}
    (hd : s.1.heap.Delivered text out block heap) (hblock : Heap.base ≤ block.toNat) :
    ({ s.1 with heap } : Simulated C σ).Shows out (Utf8.beforeZero text) := by
  refine ⟨block, ?_, readText_of_stores hblock (Heap.stores_of_read? hd.read?_eq)⟩
  rw [Simulated.readWord, hd.readWord?_eq]

theorem shows_of_copyText (hc : c.AllocatesIn s.1) {out : Word}
    (hout : out.toNat + Word.size ≤ s.1.heap.next)
    (h : (c.copyText text out : HostProgram C σ Unit).run (perform code runner) s = (.ok (), t)) :
    t.1.Shows out (Utf8.beforeZero text) := by
  by_cases hr : s.1.heap.Room (Utf8.width text + 1)
  · obtain ⟨p, h₁, hplaced, hrun⟩ := Primitives.run_copyText_of_room hc code runner hr out
    rw [hrun] at h
    cases hw : h₁.write? out p.toBytes with
    | none =>
      rw [writeBytes_of_none hw] at h
      exact nomatch (Prod.mk.inj h).1
    | some h₂ =>
      rw [writeBytes_of_some hw] at h
      obtain ⟨-, rfl⟩ := Prod.mk.inj h
      exact shows_of_delivered (s := s) (hplaced.delivered hout hw) hplaced.base_le
  · obtain ⟨failure, heap, -, hrun⟩ := Primitives.run_copyText_of_noRoom hc code runner hr out
    rw [hrun] at h
    exact nomatch (Prod.mk.inj h).1

theorem shows_of_deliver (hc : c.AllocatesIn s.1) (reply : Reply) {contents error : Word}
    {v : Value} (hout : (reply.slot contents error).toNat + Word.size ≤ s.1.heap.next)
    (h : (Callback.deliver c reply (.pointer contents) (.pointer error) :
      HostProgram C σ Value).run (perform code runner) s = (.ok v, t)) :
    t.1.Shows (reply.slot contents error) (Utf8.beforeZero reply.text) := by
  rw [run_deliver] at h
  obtain ⟨hv, rfl⟩ := Prod.mk.inj h
  cases hr : (c.copyText reply.text (reply.slot contents error) : HostProgram C σ Unit).run
      (perform code runner) s with
  | mk r t =>
    cases r with
    | ok _ => exact shows_of_copyText hc hout hr
    | error failure =>
      rw [hr] at hv
      contradiction

/-- What a module reads of a text that a host hands to it is what stands before the first zero
character: of a fresh copy, of a copy behind an out address that is not in the copy itself, of the
input when an entry point is called, and of a reply when a callback returns. -/
theorem text_passed (code : C → List Value → HostProgram C σ Value)
    (runner : Runner (HostFunction C σ) σ (Simulated C σ)) (c : Primitives) (text : String)
    (s : Simulated C σ × σ) :
    (∀ p t, (Program.allocateText text : HostProgram C σ Word).run (perform code runner) s =
        (.ok p, t) → t.1.readText p = .ok (Utf8.beforeZero text)) ∧
      (c.AllocatesIn s.1 → ∀ (out : Word) t, out.toNat + Word.size ≤ s.1.heap.next →
        (c.copyText text out : HostProgram C σ Unit).run (perform code runner) s = (.ok (), t) →
          t.1.Shows out (Utf8.beforeZero text)) ∧
      (∀ symbol extra service args t, c.reset ≠ some symbol →
        (.call symbol args, t) ∈ (EntryRun.run c symbol text extra service).trace
            (perform code runner) s →
          ∃ buffer rest, args = .pointer buffer :: rest ∧
            t.1.readText buffer = .ok (Utf8.beforeZero text)) ∧
      (c.AllocatesIn s.1 → ∀ (contents error : Word) v t,
        contents.toNat + Word.size ≤ s.1.heap.next →
        (Callback.deliver c (.contents text) (.pointer contents) (.pointer error)).run
            (perform code runner) s = (.ok v, t) →
          t.1.Shows contents (Utf8.beforeZero text)) ∧
      (Utf8.beforeZero text = text ↔ '\x00' ∉ text.toList) := by
  refine ⟨fun p t h => readText_of_allocateText h,
    fun hc out t hout h => shows_of_copyText hc hout h,
    fun symbol extra service args t hreset h => ?_,
    fun hc contents error v t hout h => shows_of_deliver hc (.contents text) hout h,
    Utf8.beforeZero_eq_self_iff⟩
  obtain ⟨buffer, heap, hrun, ⟨rest, rfl⟩, hheap⟩ := of_call_mem_run hreset h
  refine ⟨buffer, extra ++ rest, rfl, ?_⟩
  rw [readText_congr (n := { s.1 with heap }) hheap]
  exact readText_of_allocateText hrun

/-- A text with a zero character in it is shortened, and nothing is reported. -/
theorem exists_shortened_text :
    ∃ p t, (Program.allocateText "a\x00b" : HostProgram Empty Unit Word).run
        (perform (fun k _ => k.elim) fun _ s => (.ok .void, s)) (ofEntries [], ()) = (.ok p, t) ∧
      t.1.readText p = .ok "a" ∧ "a" ≠ "a\x00b" :=
  ⟨8, _, rfl, by rfl, by decide⟩

end Simulated

end SolidityHost
