import SolidityHost.Proofs.Json.Nesting
import SolidityHost.Proofs.Output.Codecs

/-!
# Output that is written and read again

What is read of the output keeps its known fields when it is written, and written as JSON it is read
as the same again. Through its text that holds where every double reads back: a double that does
not drifts each time it is read.
-/

set_option autoImplicit false

namespace SolidityHost

open Json

theorem SourceLocation.bounds : Bounds 1 (KeepsRecord known) := bounds_record (by simp [known])

theorem Diagnostic.bounds : Bounds 2 (KeepsRecord known) :=
  bounds_record (by simp [known, SourceLocation.bounds])

theorem SourceOutput.bounds : Bounds 1 (KeepsRecord known) := bounds_record (by simp [known])

theorem LinkReference.bounds : Bounds 1 (KeepsRecord known) := bounds_record (by simp [known])

theorem LinkReferences.bounds : Bounds 3 Keeps := LinkReference.bounds.list.dict

theorem BytecodeOutput.bounds : Bounds 4 (KeepsRecord known) :=
  bounds_record (by simp [known, LinkReferences.bounds])

theorem CreationCosts.bounds : Bounds 1 (KeepsRecord known) := bounds_record (by simp [known])

theorem GasEstimates.bounds : Bounds 2 (KeepsRecord known) :=
  bounds_record (by simp [known, CreationCosts.bounds])

theorem Json.Codec.readable_empty {α : Type} {decode : Json → Option α} {encode : α → Json}
    {sound : α → Prop} {keeps : Json → Json → Prop} {depth n : Nat} {empty : α}
    (h : Codec decode encode sound keeps) (hb : Bounds depth keeps) (hpos : 0 < depth)
    (hempty : decode (.object []) = some empty) (hn : depth ≤ n) : (encode empty).Readable n :=
  hb.readable_default hpos (h.reads _ _ (.object .nil nofun) hempty).2 hn

theorem EvmOutput.bounds : Bounds 5 (KeepsRecord known) := by
  have hbytecode : ∀ n, 4 ≤ n → BytecodeOutput.empty.encode.Readable n :=
    fun n => BytecodeOutput.codec.readable_empty BytecodeOutput.bounds (by decide) rfl
  have hgas : ∀ n, 4 ≤ n → GasEstimates.empty.encode.Readable n := fun n hn =>
    GasEstimates.codec.readable_empty GasEstimates.bounds (by decide) rfl (by omega)
  have hgasBounds : Bounds 4 (KeepsRecord GasEstimates.known) :=
    GasEstimates.bounds.mono (by decide)
  exact bounds_record
    (by simpa [known, BytecodeOutput.bounds, hgasBounds] using And.intro hbytecode hgas)

theorem ContractOutput.bounds : Bounds 6 (KeepsRecord known) := by
  have hevm : ∀ n, 5 ≤ n → EvmOutput.empty.encode.Readable n :=
    fun n => EvmOutput.codec.readable_empty EvmOutput.bounds (by decide) rfl
  exact bounds_record (by simpa [known, EvmOutput.bounds, Readable.null] using hevm)

theorem Output.bounds : Bounds 9 (KeepsRecord known) := by
  have hdiagnostics : Bounds 8 (KeepsList (KeepsRecord Diagnostic.known)) :=
    Diagnostic.bounds.list.mono (by decide)
  have hsources : Bounds 8 (KeepsDict (KeepsRecord SourceOutput.known)) :=
    SourceOutput.bounds.dict.mono (by decide)
  exact bounds_record (by simp [known, hdiagnostics, hsources, ContractOutput.bounds.dict.dict])

/-- What was read of a value survives: what is written for it keeps the value, it is read as the
same again, and so is its text if the value could be read from a text. -/
structure Survives {α : Type} (decode : Json → Option α) (encode : α → Json)
    (keeps : Json → Json → Prop) (v : Json) (a : α) : Prop where
  kept : keeps v (encode a)
  again : decode (encode a) = some a
  reread : v.Readable maxNesting →
    ∃ w, Json.parse? (encode a).toText = some w ∧ decode w = some a

variable {α : Type} {decode : Json → Option α} {encode : α → Json} {sound : α → Prop}
  {keeps : Json → Json → Prop} {depth : Nat} {v : Json} {a : α}

theorem Json.Codec.reread (h : Codec decode encode sound keeps) (ha : sound a)
    (hr : (encode a).Readable maxNesting) :
    ∃ w, Json.parse? (encode a).toText = some w ∧ decode w = some a :=
  ⟨_, parse?_toText hr, h.rereads sorted arrangement_sorted a ha⟩

theorem Json.Codec.survives (h : Codec decode encode sound keeps) (hb : Bounds depth keeps)
    (hdepth : depth ≤ maxNesting) (hv : v.InOrder) (hd : decode v = some a) :
    Survives decode encode keeps v a := by
  obtain ⟨hsound, hkept⟩ := h.reads v a hv hd
  refine ⟨hkept, h.rereads id arrangement_id a hsound, fun hr => h.reread hsound ?_⟩
  exact hb maxNesting v _ hdepth hr hkept

/-- Whatever is read as an output, a diagnostic or link references survives. -/
theorem output_survives (v : Json) (hv : v.InOrder) :
    (∀ o, Output.decode v = some o →
      Survives Output.decode Output.encode (KeepsRecord Output.known) v o) ∧
    (∀ d, Diagnostic.decode v = some d →
      Survives Diagnostic.decode Diagnostic.encode (KeepsRecord Diagnostic.known) v d) ∧
    ∀ refs, decodeReferences v = some refs →
      Survives decodeReferences encodeReferences LinkReferences.Keeps v refs :=
  ⟨fun _ => Output.codec.survives Output.bounds (by decide) hv,
    fun _ => Diagnostic.codec.survives Diagnostic.bounds (by decide) hv,
    fun _ => LinkReferences.codec.survives LinkReferences.bounds (by decide) hv⟩

def annotated : Json :=
  .object [("sources", .object [("a", .object [("ast", .bool true), ("origin", .null)])])]

theorem output_survives_annotated :
    annotated.InOrder ∧ annotated.Readable maxNesting ∧
      ∃ o, Output.decode annotated = some o ∧ KeepsRecord Output.known annotated o.encode ∧
        o.toText = "\x7b\"sources\":\x7b\"a\":\x7b\"ast\":true\x7d\x7d\x7d" ∧
        ∃ w, Json.parse? o.toText = some w ∧ Output.decode w = some o := by
  have hv : annotated.InOrder := by
    refine InOrder.single (InOrder.single (.object (List.pairwise_pair.2 (by decide)) ?_) _) _
    exact List.forall_mem_cons.2 ⟨.bool _, List.forall_mem_singleton.2 .null⟩
  have hr : annotated.Readable 127 := by
    refine Readable.single (Readable.single (.object ?_) _) _
    exact List.forall_mem_cons.2 ⟨.bool _ _, List.forall_mem_singleton.2 (.null _)⟩
  obtain ⟨o, ho, htext⟩ : ∃ o, Output.decode annotated = some o ∧
      o.toText = "\x7b\"sources\":\x7b\"a\":\x7b\"ast\":true\x7d\x7d\x7d" := ⟨_, rfl, by rfl⟩
  have hsurvives := (output_survives annotated hv).1 o ho
  exact ⟨hv, hr, o, ho, hsurvives.kept, htext, hsurvives.reread hr⟩

def drifting : String :=
  "\x7b\"sources\":\x7b\"a\":\x7b\"ast\":9.899573943389542\x7d\x7d\x7d"

theorem exists_drift :
    ∃ v o w p, Json.parse? drifting = some v ∧ Output.decode v = some o ∧
      Json.parse? o.toText = some w ∧ Output.decode w = some p ∧ o.toText ≠ p.toText := by
  have hfirst : ((Json.parse? drifting).bind Output.decode).map Output.toText =
      some "\x7b\"sources\":\x7b\"a\":\x7b\"ast\":9.899573943389543\x7d\x7d\x7d" := by
    decide +kernel
  have hsecond : ((Json.parse?
        "\x7b\"sources\":\x7b\"a\":\x7b\"ast\":9.899573943389543\x7d\x7d\x7d").bind
      Output.decode).map Output.toText =
      some "\x7b\"sources\":\x7b\"a\":\x7b\"ast\":9.899573943389544\x7d\x7d\x7d" := by
    decide +kernel
  obtain ⟨o, ho, hfirst⟩ := Option.map_eq_some_iff.1 hfirst
  obtain ⟨v, hv, ho⟩ := Option.bind_eq_some_iff.1 ho
  rw [← hfirst] at hsecond
  obtain ⟨p, hp, hsecond⟩ := Option.map_eq_some_iff.1 hsecond
  obtain ⟨w, hw, hp⟩ := Option.bind_eq_some_iff.1 hp
  refine ⟨v, o, w, p, hv, ho, hw, hp, ?_⟩
  rw [hfirst, hsecond]
  decide

end SolidityHost
