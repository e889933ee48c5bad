import SolidityHost.Proofs.Library.Places

/-!
# Flattening of library mappings

A mapping is an object of addresses and of objects of addresses; anything else is refused, at the
first place in key order where an address is missing. The map of a mapping lists what its entries
register and nothing else, each name with one of the addresses that are registered for it.
-/

set_option autoImplicit false

namespace SolidityHost.LibraryMap

variable {key file name x address : String} {m : LibraryMap} {fields : Entries Json}

def IsMapping (j : Json) : Prop :=
  ∃ fields, j = .object fields ∧ ∀ e ∈ fields, IsAddress e.2 ∨
    ∃ libraries, e.2 = .object libraries ∧ ∀ l ∈ libraries, IsAddress l.2

def Offends (fields : Entries Json) (p : Place) : Prop :=
  ∃ j, (p, j) ∈ leaves fields ∧ ¬ IsAddress j

structure FirstOffending (fields : Entries Json) (p : Place) : Prop where
  offends : Offends fields p
  first : ∀ q, Offends fields q → q ≠ p → p.Before q

/-- Why a value is refused as a mapping. -/
inductive Refused : Json → NormalizationError → Prop
  | notAnObject {j : Json} (h : ∀ fields, j ≠ .object fields) : Refused j .notAnObject
  | offending {fields : Entries Json} {p : Place} (h : FirstOffending fields p) :
      Refused (.object fields) (.invalidLibraryMapping p.identifier)

theorem isMapping_object_iff :
    IsMapping (.object fields) ↔ ∀ l ∈ leaves fields, IsAddress l.2 := by
  have hentry (e : String × Json) : (∀ l ∈ leavesOf e, IsAddress l.2) ↔ IsAddress e.2 ∨
      ∃ libraries, e.2 = .object libraries ∧ ∀ l ∈ libraries, IsAddress l.2 := by
    obtain ⟨key, j⟩ := e
    cases j with
    | object libraries =>
      simp only [leavesOf, List.forall_mem_map]
      simp [IsAddress]
    | _ => simp [leavesOf, IsAddress]
  simp only [IsMapping, Json.object.injEq, exists_eq_left', leaves, List.forall_mem_flatMap, hentry]

theorem exists_ofJson_iff {j : Json} : (∃ m, ofJson j = .ok m) ↔ IsMapping j := by
  cases j with
  | object fields => rw [isMapping_object_iff, ofJson, addEntries_eq, exists_addLeaves_iff]
  | _ => simp [ofJson, IsMapping]

/-- The first place that offends stands behind places with addresses only. -/
theorem firstOffending_iff (ho : (Json.object fields).InOrder) {p : Place} :
    FirstOffending fields p ↔ ∃ before j after, leaves fields = before ++ (p, j) :: after ∧
      (∀ l ∈ before, IsAddress l.2) ∧ ¬ IsAddress j := by
  constructor
  · rintro ⟨⟨j, hmem, hj⟩, hfirst⟩
    obtain ⟨before, after, hls⟩ := List.append_of_mem hmem
    refine ⟨before, j, after, hls, fun l hl => Classical.byContradiction fun hoffends => ?_, hj⟩
    have hsorted := pairwise_leaves ho
    rw [hls, List.pairwise_append] at hsorted
    have hlp : l.1.Before p := hsorted.2.2 l hl (p, j) List.mem_cons_self
    have hmem : (l.1, l.2) ∈ leaves fields := hls ▸ List.mem_append_left _ hl
    exact hlp.asymm (hfirst l.1 ⟨l.2, hmem, hoffends⟩ hlp.ne)
  · rintro ⟨before, j, after, hls, hbefore, hj⟩
    refine ⟨⟨j, by simp [hls], hj⟩, ?_⟩
    rintro q ⟨k, hq, hk⟩ hne
    rcases cases_of_mem_leaves ho hls hq with ⟨hq, -⟩ | heq | ⟨-, hpq⟩
    · exact absurd (hbefore _ hq) hk
    · exact absurd (Prod.mk.inj heq).1 hne
    · exact hpq

theorem ofJson_eq_error_iff {j : Json} (ho : j.InOrder) {error : NormalizationError} :
    ofJson j = .error error ↔ Refused j error := by
  constructor
  · intro h
    cases j with
    | object fields =>
      rw [ofJson, addEntries_eq] at h
      obtain ⟨before, p, j, after, hls, hbefore, hj, rfl⟩ := exists_split_of_addLeaves h
      exact .offending ((firstOffending_iff ho).2 ⟨before, j, after, hls, hbefore, hj⟩)
    | _ =>
      obtain rfl := Except.error.inj h
      exact .notAnObject (by simp)
  · intro h
    cases h with
    | notAnObject h =>
      cases j with
      | object fields => exact absurd rfl (h fields)
      | _ => rfl
    | offending h =>
      obtain ⟨before, j, after, hls, hbefore, hj⟩ := (firstOffending_iff ho).1 h
      rw [ofJson, addEntries_eq, hls]
      exact addLeaves_eq_error _ hbefore hj

inductive Registers (fields : Entries Json) : String → String → Prop
  | key {key address : String} (h : (key, .string address) ∈ fields) :
      Registers fields key address
  | bareName {key file name address : String} (h : (key, .string address) ∈ fields)
      (hkey : Splits key file name) : Registers fields name address
  | library {file name address : String} {libraries : Entries Json}
      (h : (file, .object libraries) ∈ fields) (hname : (name, .string address) ∈ libraries) :
      Registers fields name address
  | qualified {file name address : String} {libraries : Entries Json}
      (h : (file, .object libraries) ∈ fields) (hname : (name, .string address) ∈ libraries) :
      Registers fields (qualify file name) address

/-- The map lists what is registered, each name with an address that is registered for it. -/
structure Flattens (fields : Entries Json) (m : LibraryMap) : Prop where
  keys : ∀ x, x ∈ m.addresses.keys ↔ ∃ address, Registers fields x address
  registered : ∀ x address, m.get? x = some address → Registers fields x address
  unanimous : ∀ x address, Registers fields x address →
    (∀ other, Registers fields x other → other = address) → m.get? x = some address

theorem registers_iff :
    Registers fields x address ↔ ∃ p, (p, .string address) ∈ leaves fields ∧ p.Names x := by
  constructor
  · intro h
    cases h with
    | key h => exact ⟨⟨x, none⟩, mem_leaves_key.2 h, .inl rfl⟩
    | bareName h hkey => exact ⟨⟨_, none⟩, mem_leaves_key.2 h, .inr ⟨_, hkey⟩⟩
    | library h hname => exact ⟨⟨_, some x⟩, mem_leaves_library.2 ⟨_, h, hname⟩, .inr rfl⟩
    | qualified h hname => exact ⟨⟨_, some _⟩, mem_leaves_library.2 ⟨_, h, hname⟩, .inl rfl⟩
  · rintro ⟨⟨key, _ | name⟩, hmem, hnames⟩
    · have h := mem_leaves_key.1 hmem
      rcases hnames with rfl | ⟨file, hkey⟩
      · exact .key h
      · exact .bareName h hkey
    · obtain ⟨libraries, h, hname⟩ := mem_leaves_library.1 hmem
      rcases hnames with rfl | rfl
      · exact .qualified h hname
      · exact .library h hname

theorem get?_of_addEntries (h : addEntries empty fields = .ok m) (x : String) :
    (∃ address, Registers fields x address ∧ m.get? x = some address) ∨
      (∀ address, ¬ Registers fields x address) ∧ m.get? x = none := by
  rw [addEntries_eq] at h
  simp only [registers_iff]
  rcases get?_addLeaves h x with ⟨before, p, address, after, hls, hnames, -, hget⟩ | ⟨hnone, hget⟩
  · exact .inl ⟨address, ⟨p, by simp [hls], hnames⟩, hget⟩
  · exact .inr ⟨fun address ⟨p, hmem, hnames⟩ => hnone _ hmem hnames, hget⟩

theorem flattens_of_addEntries (h : addEntries empty fields = .ok m) : Flattens fields m := by
  constructor
  · intro x
    rw [Dict.mem_keys_iff]
    rcases get?_of_addEntries h x with ⟨address, hr, hget⟩ | ⟨hnone, hget⟩
    · exact ⟨fun _ => ⟨address, hr⟩, fun _ => ⟨address, hget⟩⟩
    · constructor
      · rintro ⟨address, hsome⟩
        exact nomatch hget.symm.trans hsome
      · rintro ⟨address, hr⟩
        exact absurd hr (hnone address)
  · intro x address hsome
    rcases get?_of_addEntries h x with ⟨other, hr, hget⟩ | ⟨-, hget⟩
    · exact Option.some.inj (hget.symm.trans hsome) ▸ hr
    · exact nomatch hget.symm.trans hsome
  · intro x address hr hall
    rcases get?_of_addEntries h x with ⟨other, hother, hget⟩ | ⟨hnone, -⟩
    · exact hall other hother ▸ hget
    · exact absurd hr (hnone address)

/-- Exactly the mappings are accepted, and anything else is refused for the first reason that there
is. The map of a mapping lists what its entries register. -/
theorem ofJson_flattens {j : Json} (ho : j.InOrder) :
    ((∃ m, ofJson j = .ok m) ↔ IsMapping j) ∧
      (∀ error, ofJson j = .error error ↔ Refused j error) ∧
      ∀ fields m, j = .object fields → ofJson j = .ok m → Flattens fields m := by
  refine ⟨exists_ofJson_iff, fun error => ofJson_eq_error_iff ho, ?_⟩
  rintro fields m rfl h
  exact flattens_of_addEntries h

def crossed : Entries Json :=
  [("L", .string "0x1"), ("a.sol:L", .string "0x1"),
    ("b.sol", .object [("L", .string "0x2"), ("M", .string "0x3")])]

theorem ofJson_flattens_crossed :
    (Json.object crossed).InOrder ∧ IsMapping (.object crossed) ∧
      ∃ m, ofJson (.object crossed) = .ok m ∧ Flattens crossed m ∧
        m.addresses.keys = ["L", "M", "a.sol:L", "b.sol:L", "b.sol:M"] ∧
        m.get? "L" = some "0x2" := by
  have hnested : (Json.object [("L", .string "0x2"), ("M", .string "0x3")]).InOrder :=
    inOrder_of_addresses (Entries.ordered_iff.2 (by decide)) (by simp [IsAddress])
  have ho : (Json.object crossed).InOrder :=
    .object (Entries.ordered_iff.2 (by decide)) (List.forall_mem_cons.2 ⟨.string _,
      List.forall_mem_cons.2 ⟨.string _, List.forall_mem_singleton.2 hnested⟩⟩)
  obtain ⟨hiff, -, hflat⟩ := ofJson_flattens ho
  have hok : ofJson (.object crossed) = .ok ((((((empty.insert "L" "0x1").insert "L" "0x1").insert
      "a.sol:L" "0x1").insert "L" "0x2").insert "b.sol:L" "0x2").insert "M" "0x3" |>.insert
      "b.sol:M" "0x3") := rfl
  exact ⟨ho, hiff.1 ⟨_, hok⟩, _, hok, hflat _ _ rfl hok, by decide, by decide⟩

end SolidityHost.LibraryMap
