/-!
# Dictionaries in key order

Entries are listed with strictly increasing keys, so the list is determined by what it maps.
`Entries` is the bare list, which also serves JSON objects; `Dict` carries the order as a field.
Keys are compared code point by code point, which is the order of their UTF-8 bytes.
-/

set_option autoImplicit false

namespace SolidityHost

abbrev Entries (α : Type) := List (String × α)

namespace Entries

variable {α : Type}

def Ordered (es : Entries α) : Prop := es.Pairwise (fun a b => a.1 < b.1)

def get? (es : Entries α) (k : String) : Option α := es.lookup k

def insert (k : String) (v : α) : Entries α → Entries α
  -- in place of an earlier value, or at the key's place in the order
  | [] => [(k, v)]
  | (k', v') :: rest =>
    if k < k' then (k, v) :: (k', v') :: rest
    else if k = k' then (k, v) :: rest
    else (k', v') :: insert k v rest

def ofList (pairs : List (String × α)) : Entries α :=
  pairs.foldl (fun es p => es.insert p.1 p.2) []

theorem mem_insert {k : String} {v : α} {es : Entries α} {p : String × α}
    (h : p ∈ es.insert k v) : p = (k, v) ∨ p ∈ es := by
  induction es with
  | nil => simpa [insert] using h
  | cons e rest ih =>
    rw [insert] at h
    split at h
    · simpa using h
    · split at h
      · rcases List.mem_cons.1 h with h | h
        · exact .inl h
        · exact .inr (List.mem_cons_of_mem _ h)
      · rcases List.mem_cons.1 h with h | h
        · exact .inr (h ▸ List.mem_cons_self)
        · exact (ih h).imp_right (List.mem_cons_of_mem _)

theorem Ordered.insert {es : Entries α} (h : es.Ordered) (k : String) (v : α) :
    (es.insert k v).Ordered := by
  induction es with
  | nil => simp [Entries.insert, Ordered]
  | cons e rest ih =>
    have hr : Ordered rest := (List.pairwise_cons.1 h).2
    have he := (List.pairwise_cons.1 h).1
    rw [Entries.insert]
    split
    case isTrue hk =>
      refine List.pairwise_cons.2 ⟨fun p hp => ?_, h⟩
      rcases List.mem_cons.1 hp with rfl | hp
      · exact hk
      · exact String.lt_trans hk (he p hp)
    case isFalse hk =>
      split
      case isTrue heq => exact List.pairwise_cons.2 ⟨fun p hp => heq ▸ he p hp, hr⟩
      case isFalse hne =>
        refine List.pairwise_cons.2 ⟨fun p hp => ?_, ih hr⟩
        rcases mem_insert hp with rfl | hp
        · rcases String.le_total k e.1 with hle | hle
          · exact absurd (String.le_antisymm hle (String.not_lt.1 hk)) hne
          · exact Decidable.byContradiction fun hlt =>
              hne (String.le_antisymm (String.not_lt.1 hlt) hle)
        · exact he p hp

theorem ordered_foldl_insert (pairs : List (String × α)) (es : Entries α) (h : es.Ordered) :
    (pairs.foldl (fun es p => es.insert p.1 p.2) es).Ordered := by
  induction pairs generalizing es with
  | nil => exact h
  | cons p rest ih => exact ih _ (h.insert _ _)

theorem ordered_ofList (pairs : List (String × α)) : (ofList pairs).Ordered :=
  ordered_foldl_insert pairs [] List.Pairwise.nil

theorem get?_insert (es : Entries α) (k q : String) (v : α) :
    (es.insert k v).get? q = if q = k then some v else es.get? q := by
  induction es with
  | nil => by_cases hq : q = k <;> simp [insert, get?, List.lookup_cons, hq, beq_eq_false_iff_ne.2]
  | cons e rest ih =>
    obtain ⟨k', v'⟩ := e
    rw [insert]
    split
    case isTrue hk =>
      by_cases hq : q = k <;> simp [get?, List.lookup_cons, hq, beq_eq_false_iff_ne.2]
    case isFalse hk =>
      split
      case isTrue heq =>
        subst heq
        by_cases hq : q = k <;> simp [get?, List.lookup_cons, hq, beq_eq_false_iff_ne.2]
      case isFalse hne =>
        simp only [get?] at ih ⊢
        by_cases hq : q = k'
        · subst hq
          simp [Ne.symm hne]
        · simp [List.lookup_cons, beq_eq_false_iff_ne.2 hq, ih]

end Entries

/-- A finite map from strings, listed in key order. -/
structure Dict (α : Type) where
  entries : Entries α
  ordered : entries.Ordered

namespace Dict

variable {α β : Type}

@[ext] theorem ext {d e : Dict α} (h : d.entries = e.entries) : d = e := by
  cases d; cases e; cases h; rfl

def empty : Dict α := ⟨[], List.Pairwise.nil⟩

instance : Inhabited (Dict α) := ⟨empty⟩

def insert (d : Dict α) (k : String) (v : α) : Dict α :=
  ⟨d.entries.insert k v, d.ordered.insert k v⟩

def get? (d : Dict α) (k : String) : Option α := d.entries.get? k

def alter (d : Dict α) (k : String) (f : Option α → α) : Dict α :=
  d.insert k (f (d.get? k))

def size (d : Dict α) : Nat := d.entries.length

def isEmpty (d : Dict α) : Bool := d.entries.isEmpty

def keys (d : Dict α) : List String := d.entries.map (·.1)

def ofList (pairs : List (String × α)) : Dict α :=
  pairs.foldl (fun d p => d.insert p.1 p.2) empty

@[simp] theorem get?_empty (k : String) : (empty : Dict α).get? k = none := rfl

theorem get?_insert (d : Dict α) (k q : String) (v : α) :
    (d.insert k v).get? q = if q = k then some v else d.get? q :=
  Entries.get?_insert d.entries k q v

theorem get?_alter (d : Dict α) (k q : String) (f : Option α → α) :
    (d.alter k f).get? q = if q = k then some (f (d.get? k)) else d.get? q :=
  get?_insert d k q _

end Dict

end SolidityHost
