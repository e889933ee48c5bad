import SolidityHost.Proofs.Json.Codec

/-!
# Nesting of what is written

What is written for a value nests no deeper than the value, apart from defaults, which are shallow.
Its numbers are numbers of the value or integers. So it can be read back if the value could be read.
-/

set_option autoImplicit false

namespace SolidityHost.Json

variable {depth : Nat} {keeps : Json → Json → Prop} {known : List Known} {v w : Json} {r : Record}

theorem Readable.items {n : Nat} {items : List Json} (h : Readable n (.array items)) :
    ∃ m, n = m + 1 ∧ ∀ j ∈ items, j.Readable m := by
  cases h with
  | array h => exact ⟨_, rfl, h⟩

theorem Readable.fields {n : Nat} {fields : Entries Json} (h : Readable n (.object fields)) :
    ∃ m, n = m + 1 ∧ ∀ e ∈ fields, e.2.Readable m := by
  cases h with
  | object h => exact ⟨_, rfl, h⟩

theorem Readable.record {n arity : Nat} (h : v.Readable n) (hr : v.record? arity = some r) :
    ∃ m, n = m + 1 ∧ ∀ p q, ∀ j ∈ r.field? p q, j.Readable m := by
  cases v with
  | object fields =>
    obtain rfl := Option.some.inj hr
    obtain ⟨m, rfl, hfields⟩ := h.fields
    exact ⟨m, rfl, fun p q j hj => hfields _ (Entries.mem_of_get? hj)⟩
  | array items =>
    rw [record?, Option.ite_none_right_eq_some] at hr
    obtain rfl := Option.some.inj hr.2
    obtain ⟨m, rfl, hitems⟩ := h.items
    exact ⟨m, rfl, fun p q j hj => hitems j (List.mem_of_getElem? hj)⟩
  | _ => cases hr

/-- From this depth on, what is written nests no deeper than what was read. -/
def Bounds (depth : Nat) (keeps : Json → Json → Prop) : Prop :=
  ∀ n v w, depth ≤ n → v.Readable n → keeps v w → w.Readable n

@[simp] theorem bounds_eq (depth : Nat) : Bounds depth Eq := by
  rintro n v _ - hv rfl
  exact hv

@[simp] theorem bounds_name (depth : Nat) : Bounds depth KeepsName := by
  rintro n v _ - - ⟨s, rfl, -⟩
  exact .string n s

namespace Bounds

theorem mono {lower : Nat} (h : Bounds lower keeps) (hd : lower ≤ depth) : Bounds depth keeps :=
  fun n v w hn => h n v w (hd.trans hn)

variable (h : Bounds depth keeps)

include h

theorem list : Bounds (depth + 1) (KeepsList keeps) := by
  rintro n v w hn hv ⟨items, items', rfl, rfl, hall⟩
  obtain ⟨m, rfl, hitems⟩ := hv.items
  refine .array ?_
  clear hv
  induction hall with
  | nil => nofun
  | cons hk _ ih =>
    obtain ⟨hj, hrest⟩ := List.forall_mem_cons.1 hitems
    exact List.forall_mem_cons.2 ⟨h m _ _ (Nat.le_of_succ_le_succ hn) hj hk, ih hrest⟩

theorem dict : Bounds (depth + 1) (KeepsDict keeps) := by
  rintro n v w hn hv ⟨fields, fields', rfl, rfl, hall⟩
  obtain ⟨m, rfl, hfields⟩ := hv.fields
  refine .object ?_
  clear hv
  induction hall with
  | nil => nofun
  | cons hk _ ih =>
    obtain ⟨hj, hrest⟩ := List.forall_mem_cons.1 hfields
    exact List.forall_mem_cons.2 ⟨h m _ _ (Nat.le_of_succ_le_succ hn) hj hk.2, ih hrest⟩

theorem readable_default (hpos : 0 < depth) (hk : keeps (.object []) w) {n : Nat}
    (hn : depth ≤ n) : w.Readable n := by
  obtain ⟨m, rfl⟩ := Nat.exists_eq_succ_of_ne_zero (by omega : n ≠ 0)
  exact h (m + 1) (.object []) w hn (.object nofun) hk

end Bounds

structure Known.Bounded (depth : Nat) (k : Known) : Prop where
  keeps : Bounds depth k.keeps
  defaulted : ∀ value, k.presence = .defaulted value → ∀ n, depth ≤ n → value.Readable n

section

variable {name : String}

@[simp] theorem bounded_required :
    Known.Bounded depth ⟨name, .required, keeps⟩ ↔ Bounds depth keeps :=
  ⟨fun h => h.keeps, fun h => ⟨h, nofun⟩⟩

@[simp] theorem bounded_optional :
    Known.Bounded depth ⟨name, .optional, keeps⟩ ↔ Bounds depth keeps :=
  ⟨fun h => h.keeps, fun h => ⟨h, nofun⟩⟩

@[simp] theorem bounded_nonempty :
    Known.Bounded depth ⟨name, .nonempty, keeps⟩ ↔ Bounds depth keeps :=
  ⟨fun h => h.keeps, fun h => ⟨h, nofun⟩⟩

@[simp] theorem bounded_defaulted {value : Json} :
    Known.Bounded depth ⟨name, .defaulted value, keeps⟩ ↔
      Bounds depth keeps ∧ ∀ n, depth ≤ n → value.Readable n := by
  refine ⟨fun h => ⟨h.keeps, h.defaulted value rfl⟩, fun h => ⟨h.1, ?_⟩⟩
  rintro _ ⟨rfl⟩
  exact h.2

end

theorem readable_of_keeps {k : Known} (hk : k.Bounded depth) {n : Nat} (hn : depth ≤ n)
    {before after : Option Json} (hb : ∀ j ∈ before, j.Readable n) (h : k.Keeps before after) :
    ∀ j ∈ after, j.Readable n := by
  rintro j rfl
  rcases h with habsent | ⟨v, w, rfl, hw, hkeeps⟩
  · cases hp : k.presence with
    | defaulted value =>
      rw [hp] at habsent
      obtain rfl := Option.some.inj habsent.2
      exact hk.defaulted j hp n hn
    | required =>
      rw [hp] at habsent
      exact habsent.elim
    | optional | nonempty =>
      rw [hp] at habsent
      exact nomatch habsent.2
  · obtain rfl := Option.some.inj hw
    exact hk.keeps n v j hn (hb v rfl) hkeeps

theorem readable_written {n p : Nat} {parts : List (String × Option Json)}
    (h : ∀ k ∈ known, k.Bounded depth) (hn : depth ≤ n)
    (hr : ∀ p q, ∀ j ∈ r.field? p q, j.Readable n) (hk : KeepsFields r p known parts) :
    ∀ e ∈ written parts, e.2.Readable n := by
  induction hk with
  | nil => nofun
  | @cons p k known after parts hk _ ih =>
    obtain ⟨hbounded, hrest⟩ := List.forall_mem_cons.1 h
    have hafter := readable_of_keeps hbounded hn (hr _ _) hk
    cases after with
    | none => exact ih hrest
    | some j => exact List.forall_mem_cons.2 ⟨hafter j rfl, ih hrest⟩

theorem bounds_record (h : ∀ k ∈ known, k.Bounded depth) :
    Bounds (depth + 1) (KeepsRecord known) := by
  rintro n v w hn hv ⟨r, parts, hr, rfl, hk⟩
  obtain ⟨m, rfl, hm⟩ := hv.record hr
  exact .object (readable_written h (Nat.le_of_succ_le_succ hn) hm hk)

end SolidityHost.Json
