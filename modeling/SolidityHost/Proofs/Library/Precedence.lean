import SolidityHost.Proofs.Library.Places

/-!
# Which address a name stands for

Nothing ranks an identifier that is written above a bare name that is derived from another entry: of
all places that have a name, the last one in key order counts. So a written address is replaced if a
later place derives the same name, and only then. A key is split at its first colon. For a file with
a colon the bare name of a qualified key is therefore not the name of the library, although the
library is found under its name if it is written below its file.
-/

set_option autoImplicit false

namespace SolidityHost.LibraryMap

variable {file name address : String} {m : LibraryMap} {fields : Entries Json} {p q : Place}

def Has (fields : Entries Json) (p : Place) (address : String) : Prop :=
  (p, .string address) ∈ leaves fields

def WrittenOnce (fields : Entries Json) (p : Place) : Prop :=
  ∀ l ∈ leaves fields, l.1.identifier = p.identifier → l.1 = p

instance (fields : Entries Json) (p : Place) : Decidable (WrittenOnce fields p) :=
  inferInstanceAs (Decidable (∀ l ∈ leaves fields, _))

/-- The place is the last one that counts for the identifier of `p`: it is `p`, or a later one that
derives the identifier, and none behind it derives the identifier again. -/
structure Decides (fields : Entries Json) (p q : Place) : Prop where
  counts : q = p ∨ p.Before q ∧ q.Derives p.identifier
  last : ∀ r address, Has fields r address → q.Before r → ¬ r.Derives p.identifier

theorem exists_decides (ho : (Json.object fields).InOrder) (h : ofJson (.object fields) = .ok m)
    (hp : Has fields p address) (honce : WrittenOnce fields p) :
    ∃ q other, Has fields q other ∧ Decides fields p q ∧ m.get? p.identifier = some other := by
  rw [ofJson, addEntries_eq] at h
  rcases get?_addLeaves h p.identifier with
    ⟨before, q, other, after, hls, hnames, hafter, hget⟩ | ⟨hnone, -⟩
  · have hq : Has fields q other := by simp [Has, hls]
    refine ⟨q, other, hq, ⟨?counts, ?last⟩, hget⟩
    case counts =>
      rcases cases_of_mem_leaves ho hls hp with ⟨-, hpq⟩ | heq | ⟨hbehind, -⟩
      · rcases hnames with heq | hderives
        · exact .inl (honce _ hq heq.symm)
        · exact .inr ⟨hpq, hderives⟩
      · exact .inl (Prod.mk.inj heq).1.symm
      · exact absurd (.inl rfl) (hafter _ hbehind)
    case last =>
      intro r a hr hqr hderives
      rcases cases_of_mem_leaves ho hls hr with ⟨-, hrq⟩ | heq | ⟨hbehind, -⟩
      · exact hqr.asymm hrq
      · exact hqr.ne (Prod.mk.inj heq).1.symm
      · exact hafter _ hbehind (.inr hderives)
  · exact absurd (.inl rfl) (hnone _ hp)

/-- In a place there is one address. -/
theorem Has.unique (ho : (Json.object fields).InOrder) {other : String}
    (h : Has fields p address) (h' : Has fields p other) : address = other := by
  obtain ⟨before, after, hls⟩ := List.append_of_mem h
  rcases cases_of_mem_leaves ho hls h' with ⟨-, hpp⟩ | heq | ⟨-, hpp⟩
  · exact absurd rfl hpp.ne
  · exact (Json.string.inj (Prod.mk.inj heq).2).symm
  · exact absurd rfl hpp.ne

/-- An identifier that is written once stands for the address of the place that decides. That is the
address written for it if each place that derives it as a bare name comes earlier in key order, or
has the same address. -/
theorem get?_identifier (ho : (Json.object fields).InOrder) (h : ofJson (.object fields) = .ok m)
    (hp : Has fields p address) (honce : WrittenOnce fields p) :
    (∃ q other, Has fields q other ∧ Decides fields p q ∧ m.get? p.identifier = some other) ∧
      ((∀ q other, Has fields q other → q.Derives p.identifier → q.Before p ∨ other = address) →
        m.get? p.identifier = some address) := by
  obtain ⟨q, other, hq, hdecides, hget⟩ := exists_decides ho h hp honce
  refine ⟨⟨q, other, hq, hdecides, hget⟩, fun hearlier => ?_⟩
  rcases hdecides.counts with rfl | ⟨hpq, hderives⟩
  · rw [hget, hp.unique ho hq]
  · rcases hearlier q other hq hderives with hqp | rfl
    · exact absurd hqp hpq.asymm
    · exact hget

def agreeing : Entries Json := [("A.sol:L", .string "0x1"), ("L", .string "0x2")]

theorem get?_identifier_agreeing :
    (Json.object agreeing).InOrder ∧ Has agreeing ⟨"L", none⟩ "0x2" ∧
      WrittenOnce agreeing ⟨"L", none⟩ ∧
      ∃ m, ofJson (.object agreeing) = .ok m ∧ m.get? "L" = some "0x2" := by
  have ho : (Json.object agreeing).InOrder :=
    inOrder_of_addresses (Entries.ordered_iff.2 (by decide)) (by simp [agreeing, IsAddress])
  have hp : Has agreeing ⟨"L", none⟩ "0x2" :=
    mem_leaves_key.2 (List.mem_cons_of_mem _ List.mem_cons_self)
  have honce : WrittenOnce agreeing ⟨"L", none⟩ := by decide
  obtain ⟨m, hm⟩ : ∃ m, ofJson (.object agreeing) = .ok m := ⟨_, rfl⟩
  refine ⟨ho, hp, honce, m, hm, (get?_identifier ho hm hp honce).2 ?_⟩
  intro q other hq _
  rcases List.mem_cons.1 hq with heq | hq
  · obtain ⟨rfl, -⟩ := Prod.mk.inj heq
    exact .inl (.inl (by decide))
  · exact .inr (Json.string.inj (Prod.mk.inj (List.mem_singleton.1 hq)).2)

def overriding : Entries Json := [("L", .string "0x2"), ("a.sol:L", .string "0x1")]

/-- A written address is replaced by one that is derived from a later entry. -/
theorem exists_overridden :
    ∃ fields m p address, (Json.object fields).InOrder ∧ ofJson (.object fields) = .ok m ∧
      Has fields p address ∧ WrittenOnce fields p ∧ m.get? p.identifier ≠ some address := by
  refine ⟨overriding, _, ⟨"L", none⟩, "0x2", ?_, rfl, mem_leaves_key.2 List.mem_cons_self,
    by decide, by decide⟩
  exact inOrder_of_addresses (Entries.ordered_iff.2 (by decide)) (by simp [overriding, IsAddress])

theorem qualify_left_cancel {other : String} (h : qualify file name = qualify other name) :
    file = other := by
  have hlist := congrArg String.toList h
  rw [toList_qualify, toList_qualify] at hlist
  exact String.toList_injective (List.append_cancel_right hlist)

theorem ne_qualify (file name : String) : name ≠ qualify file name := by
  intro h
  have hlength := congrArg (fun s => s.toList.length) h
  simp [toList_qualify] at hlength
  omega

/-- A qualified key has the name of the library for a bare name exactly if the file has no colon. -/
theorem derives_name_iff (hfile : file ≠ "") (hname : name ≠ "") (hline : '\n' ∉ name.toList) :
    Place.Derives ⟨qualify file name, none⟩ name ↔ ':' ∉ file.toList := by
  constructor
  · rintro ⟨other, hkey, hcolon, -⟩
    rwa [qualify_left_cancel hkey]
  · intro hcolon
    exact ⟨file, rfl, hcolon, hfile, hname, hline⟩

/-- The two spellings give equal maps exactly if the file has no colon. Otherwise both have the
qualified name, but of the two only the nested one has the name of the library. -/
theorem ofJson_spellings (hfile : file ≠ "") (hname : name ≠ "") (hline : '\n' ∉ name.toList)
    (address : String) :
    ∃ flat nested, ofJson (.object [(qualify file name, .string address)]) = .ok flat ∧
      ofJson (.object [(file, .object [(name, .string address)])]) = .ok nested ∧
      flat.get? (qualify file name) = some address ∧
      nested.get? (qualify file name) = some address ∧ nested.get? name = some address ∧
      (flat = nested ↔ ':' ∉ file.toList) ∧
      (flat.get? name = some address ↔ ':' ∉ file.toList) := by
  classical
  have hnames : Place.Names ⟨qualify file name, none⟩ name ↔ ':' ∉ file.toList :=
    (or_iff_right (ne_qualify file name)).trans (derives_name_iff hfile hname hline)
  have hflat : (empty.register ⟨qualify file name, none⟩ address).get? name = some address ↔
      ':' ∉ file.toList := by
    have hempty : empty.get? name = none := rfl
    rw [get?_register, hempty, ← hnames]
    by_cases h : Place.Names ⟨qualify file name, none⟩ name <;> simp [h]
  have hnested : (empty.register ⟨file, some name⟩ address).get? name = some address := by
    rw [get?_register, if_pos (.inr rfl)]
  refine ⟨empty.register ⟨qualify file name, none⟩ address,
    empty.register ⟨file, some name⟩ address, rfl, rfl, ?_, ?_, hnested, ⟨?_, ?_⟩, hflat⟩
  · rw [get?_register, if_pos (.inl rfl)]
  · rw [get?_register, if_pos (.inl rfl)]
  · intro heq
    rw [← hflat, heq]
    exact hnested
  · intro hcolon
    have hbare : bareName? (qualify file name) = some name :=
      bareName?_eq_some_iff.2 ⟨file, rfl, hcolon, hfile, hname, hline⟩
    simp only [register, addFlat, hbare]

theorem ofJson_spellings_network :
    "https://a.sol" ≠ "" ∧ "L" ≠ "" ∧ '\n' ∉ "L".toList ∧
      ∃ flat nested,
        ofJson (.object [("https://a.sol:L", .string "0x1")]) = .ok flat ∧
        ofJson (.object [("https://a.sol", .object [("L", .string "0x1")])]) = .ok nested ∧
        flat.addresses.keys = ["//a.sol:L", "https://a.sol:L"] ∧
        nested.addresses.keys = ["L", "https://a.sol:L"] ∧ flat ≠ nested := by
  have hfile : "https://a.sol" ≠ "" := by decide
  have hname : "L" ≠ "" := by decide
  have hline : '\n' ∉ "L".toList := by decide
  obtain ⟨flat, nested, hflat, hnested, -, -, -, hiff, -⟩ := ofJson_spellings hfile hname hline "0x1"
  refine ⟨hfile, hname, hline, flat, nested, hflat, hnested, ?_, ?_, ?_⟩
  · obtain rfl := Except.ok.inj hflat
    decide
  · obtain rfl := Except.ok.inj hnested
    decide
  · rw [Ne, hiff]
    decide

/-- For a file with a colon the two spellings give different maps. -/
theorem exists_unlike_spellings :
    ∃ file name address : String, file ≠ "" ∧ name ≠ "" ∧ ':' ∉ name.toList ∧
      '\n' ∉ name.toList ∧
      ofJson (.object [(qualify file name, .string address)]) ≠
        ofJson (.object [(file, .object [(name, .string address)])]) := by
  refine ⟨"a:b", "L", "0x1", by decide, by decide, by decide, by decide, fun heq => ?_⟩
  have hkeys := congrArg (fun r => r.toOption.map (·.addresses.keys)) heq
  revert hkeys
  decide

end SolidityHost.LibraryMap
