import SolidityHost.Json.Record
import SolidityHost.Proofs.Json.Reading

/-!
# Fields of a record that is written

A record is written as its fields that have a value. Whether it is taken as it is or read back from
its text, where the fields are in key order, each field is found under its name.
-/

set_option autoImplicit false

namespace SolidityHost.Json

variable {f : Json → Json} {parts : List (String × Option Json)} {j k : Json} {n p : Nat}
  {q : String} {r : Record}

def written (parts : List (String × Option Json)) : Entries Json :=
  parts.filterMap fun e => e.2.map fun j => (e.1, j)

theorem sublist_keys_written (parts : List (String × Option Json)) :
    ((written parts).map (·.1)).Sublist (parts.map (·.1)) := by
  induction parts with
  | nil => exact .slnil
  | cons e parts ih =>
    obtain ⟨key, _ | j⟩ := e
    · exact ih.cons key
    · exact ih.cons_cons key

theorem get?_written (hp : (parts.map (·.1)).Nodup) (q : String) :
    (written parts).get? q = (parts.lookup q).join := by
  induction parts with
  | nil => rfl
  | cons e parts ih =>
    obtain ⟨key, value⟩ := e
    obtain ⟨hnew, hparts⟩ := List.nodup_cons.1 hp
    by_cases hq : q = key
    · subst hq
      have hnone : (written parts).get? q = none := Entries.get?_eq_none_of_notMem
        fun hmem => hnew ((sublist_keys_written parts).subset hmem)
      cases value with
      | none => simpa [written] using hnone
      | some j => simp [written, Entries.get?_cons]
    · cases value with
      | none => simpa [written, List.lookup_cons, beq_eq_false_iff_ne.2 hq] using ih hparts
      | some j =>
        simpa [written, Entries.get?_cons, hq, List.lookup_cons, beq_eq_false_iff_ne.2 hq]
          using ih hparts

/-- A change of values that leaves what they say: only the order of fields may change, and not where
they are in key order. -/
structure Arrangement (f : Json → Json) : Prop where
  string : ∀ s, f (.string s) = .string s
  number : ∀ x, f (.number x) = .number x
  array : ∀ items, f (.array items) = .array (items.map f)
  object : ∀ fields : Entries Json, (fields.map (·.1)).Nodup →
    ∃ fields' : Entries Json, f (.object fields) = .object fields' ∧
      ∀ q, fields'.get? q = (fields.get? q).map f
  ordered : ∀ fields : Entries Json, fields.Ordered →
    f (.object fields) = .object (fields.map fun e => (e.1, f e.2))
  inOrder : ∀ j, j.InOrder → f j = j

theorem arrangement_id : Arrangement id where
  string _ := rfl
  number _ := rfl
  array items := by rw [List.map_id]; rfl
  object fields _ := ⟨fields, rfl, fun q => Option.map_id.symm ▸ rfl⟩
  ordered fields _ := congrArg Json.object (List.map_id fields).symm
  inOrder _ _ := rfl

theorem arrangement_sorted : Arrangement sorted where
  string _ := rfl
  number _ := rfl
  array := sorted_array
  object fields hfields := by
    refine ⟨_, sorted_object fields, fun q => ?_⟩
    have hkeys : ((fields.map fun e => (e.1, sorted e.2)).map (·.1)).Nodup := by
      rwa [List.map_map]
    rw [Entries.get?_ofList hkeys, Entries.get?_map]
  ordered fields hfields := by
    rw [sorted_object, Entries.ofList_of_ordered (hfields.map sorted)]
  inOrder _ := sorted_of_inOrder

/-- A record that was written is read as a record with the same fields. -/
theorem Arrangement.record_written (hf : Arrangement f) (hp : (parts.map (·.1)).Nodup) (n : Nat) :
    ∃ r, (f (.object (written parts))).record? n = some r ∧
      ∀ p q, r.field? p q = ((parts.lookup q).join).map f := by
  have hkeys := hp.sublist (sublist_keys_written parts)
  obtain ⟨fields, hobject, hfields⟩ := hf.object _ hkeys
  refine ⟨.named fields, by rw [hobject]; rfl, fun p q => ?_⟩
  rw [Record.field?, hfields, get?_written hp]

end SolidityHost.Json
