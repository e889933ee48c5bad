import SolidityHost.Proofs.Bytecode.Window
import SolidityHost.Proofs.Text.Utf8Order

/-!
# What linking does to a bytecode text

Linking is a sequence of writes: each takes an occurrence of a placeholder of a library and puts the
address of the library there. What every write keeps is kept by the whole, so the windows that were
written stay apart, a placeholder that is gone stays gone, and linking a second time finds nothing.
Whether linking fails depends on the map alone.
-/

set_option autoImplicit false

namespace SolidityHost.Bytecode

theorem replaceAll_of_none {p : Placeholder} {a : Address} {s : List Char}
    (h : replaceFirst? p a s = none) : replaceAll p a s = s := by
  rw [replaceAll]
  split <;> simp_all

theorem replaceAll_of_some {p : Placeholder} {a : Address} {s linked : List Char}
    (h : replaceFirst? p a s = some linked) : replaceAll p a s = replaceAll p a linked := by
  rw [replaceAll]
  split <;> simp_all

theorem replaceAll_of_absent {p : Placeholder} {s : List Char} (a : Address) (h : Absent p s) :
    replaceAll p a s = s :=
  replaceAll_of_none (replaceFirst?_eq_none_iff.2 h)

/-- What each write over an occurrence of the placeholder keeps, replacing all of them keeps. -/
theorem replaceAll_induction {P : List Char → Prop} {p : Placeholder} {a : Address}
    (write : ∀ s i, window s i = p.text → P s → P (overwrite s i a)) {s : List Char} (h : P s) :
    P (replaceAll p a s) := by
  induction s using replaceAll.induct p a with
  | case1 s hs => rwa [replaceAll_of_none hs]
  | case2 s linked hs _ ih =>
    obtain ⟨i, hi, -, rfl⟩ := exists_of_replaceFirst? hs
    rw [replaceAll_of_some hs]
    exact ih (write s i hi h)

theorem absent_replaceAll (p : Placeholder) (a : Address) (s : List Char) :
    Absent p (replaceAll p a s) := by
  induction s using replaceAll.induct p a with
  | case1 s hs =>
    rw [replaceAll_of_none hs]
    exact replaceFirst?_eq_none_iff.1 hs
  | case2 s linked hs _ ih =>
    rw [replaceAll_of_some hs]
    exact ih

def Stands (p : Placeholder) (name : String) : Prop := p = .label name ∨ p = .hashed name

theorem linkLibrary_induction {P : List Char → Prop} {name : String} {a : Address}
    (write : ∀ p s i, Stands p name → window s i = p.text → P s → P (overwrite s i a))
    {s : List Char} (h : P s) : P (linkLibrary name a s) :=
  replaceAll_induction (fun s i => write _ s i (.inr rfl))
    (replaceAll_induction (fun s i => write _ s i (.inl rfl)) h)

theorem absent_linkLibrary {p : Placeholder} {name : String} (hp : Stands p name) (a : Address)
    (s : List Char) : Absent p (linkLibrary name a s) := by
  rcases hp with rfl | rfl
  · exact replaceAll_induction (P := Absent _)
      (fun _ _ hi h => h.overwrite a (add_le_length_of_window hi)) (absent_replaceAll _ a s)
  · exact absent_replaceAll _ a _

theorem linkLibrary_of_absent {name : String} {s : List Char} (a : Address)
    (h : ∀ p, Stands p name → Absent p s) : linkLibrary name a s = s := by
  rw [linkLibrary, replaceAll_of_absent a (h _ (.inl rfl)), replaceAll_of_absent a (h _ (.inr rfl))]

theorem linkEntries_cons_of_wellFormed {name address : String} {a : Address} (code : List Char)
    (rest : Entries String) (ha : Address.parse? address = some a) :
    linkEntries code ((name, address) :: rest) = linkEntries (linkLibrary name a code) rest := by
  rw [linkEntries, ha]

theorem linkEntries_cons_of_malformed {name address : String} (code : List Char)
    (rest : Entries String) (ha : Address.parse? address = none) :
    linkEntries code ((name, address) :: rest) = .error (.invalidLibraryAddress name) := by
  rw [linkEntries, ha]

theorem linkEntries_induction {P : List Char → Prop} {libraries : Entries String}
    (write : ∀ name address a p s i, (name, address) ∈ libraries →
      Address.parse? address = some a → Stands p name → window s i = p.text → P s →
        P (overwrite s i a))
    {code linked : List Char} (h : linkEntries code libraries = .ok linked) (hc : P code) :
    P linked := by
  induction libraries generalizing code with
  | nil =>
    rw [linkEntries, Except.ok.injEq] at h
    exact h ▸ hc
  | cons e rest ih =>
    obtain ⟨name, address⟩ := e
    cases ha : Address.parse? address with
    | none =>
      rw [linkEntries_cons_of_malformed code rest ha] at h
      contradiction
    | some a =>
      rw [linkEntries_cons_of_wellFormed code rest ha] at h
      refine ih (fun n d b p s i hm => write n d b p s i (List.mem_cons_of_mem _ hm)) h ?_
      exact linkLibrary_induction
        (fun p s i hp hi hs => write name address a p s i List.mem_cons_self ha hp hi hs) hc

def Malformed (libraries : Entries String) (name : String) : Prop :=
  ∃ address, (name, address) ∈ libraries ∧ ¬ Address.WellFormed address

def LeastMalformed (libraries : Entries String) (name : String) : Prop :=
  Malformed libraries name ∧
    ∀ other, Malformed libraries other → other ≠ name → Utf8.encode name < Utf8.encode other

theorem malformed_cons {libraries : Entries String} {n address name : String} :
    Malformed ((n, address) :: libraries) name ↔
      (name = n ∧ ¬ Address.WellFormed address) ∨ Malformed libraries name := by
  constructor
  · rintro ⟨d, hd, hm⟩
    rcases List.mem_cons.1 hd with h | h
    · cases h
      exact .inl ⟨rfl, hm⟩
    · exact .inr ⟨d, h, hm⟩
  · rintro (⟨rfl, hm⟩ | ⟨d, hd, hm⟩)
    · exact ⟨address, List.mem_cons_self, hm⟩
    · exact ⟨d, List.mem_cons_of_mem _ hd, hm⟩

theorem leastMalformed_cons_of_wellFormed {libraries : Entries String} {n address name : String}
    (h : Address.WellFormed address) :
    LeastMalformed ((n, address) :: libraries) name ↔ LeastMalformed libraries name := by
  simp [LeastMalformed, malformed_cons, h]

theorem leastMalformed_cons_of_malformed {libraries : Entries String} {n address name : String}
    (ho : Entries.Ordered ((n, address) :: libraries)) (h : ¬ Address.WellFormed address) :
    LeastMalformed ((n, address) :: libraries) name ↔ name = n := by
  have behind : ∀ other, Malformed libraries other → Utf8.encode n < Utf8.encode other := by
    rintro other ⟨d, hd, -⟩
    exact Utf8.encode_lt ((List.pairwise_cons.1 ho).1 _ hd)
  have hn : Malformed ((n, address) :: libraries) n := malformed_cons.2 (.inl ⟨rfl, h⟩)
  constructor
  · rintro ⟨hm, hleast⟩
    by_contra hne
    rcases malformed_cons.1 hm with ⟨rfl, -⟩ | hm
    · exact hne rfl
    · exact List.lt_asymm (behind name hm) (hleast n hn (Ne.symm hne))
  · rintro rfl
    refine ⟨hn, fun other ho hne => ?_⟩
    rcases malformed_cons.1 ho with ⟨rfl, -⟩ | ho
    · exact absurd rfl hne
    · exact behind other ho

theorem linkEntries_eq_error_iff {libraries : Entries String} (ho : libraries.Ordered)
    (code : List Char) (e : NormalizationError) :
    linkEntries code libraries = .error e ↔
      ∃ name, e = .invalidLibraryAddress name ∧ LeastMalformed libraries name := by
  induction libraries generalizing code with
  | nil => simp [linkEntries, LeastMalformed, Malformed]
  | cons entry rest ih =>
    obtain ⟨n, address⟩ := entry
    cases ha : Address.parse? address with
    | none =>
      have hw : ¬ Address.WellFormed address := by simp [Address.wellFormed_iff_isSome, ha]
      simp only [linkEntries_cons_of_malformed code rest ha, Except.error.injEq,
        leastMalformed_cons_of_malformed ho hw, exists_eq_right]
      exact eq_comm
    | some a =>
      have hw : Address.WellFormed address := (Address.parse?_eq_some_iff.1 ha).1
      simp only [linkEntries_cons_of_wellFormed code rest ha,
        leastMalformed_cons_of_wellFormed hw]
      exact ih (List.pairwise_cons.1 ho).2 _

theorem exists_linkEntries_iff {libraries : Entries String} (code : List Char) :
    (∃ linked, linkEntries code libraries = .ok linked) ↔
      ∀ e ∈ libraries, Address.WellFormed e.2 := by
  induction libraries generalizing code with
  | nil => simp [linkEntries]
  | cons entry rest ih =>
    obtain ⟨n, address⟩ := entry
    rw [List.forall_mem_cons, Address.wellFormed_iff_isSome]
    cases ha : Address.parse? address with
    | none => simp [linkEntries_cons_of_malformed code rest ha]
    | some a => simp [linkEntries_cons_of_wellFormed code rest ha, ih]

theorem exists_link_iff (code : String) (libraries : LibraryMap) :
    (∃ linked, link code libraries = .ok linked) ↔
      ∀ e ∈ libraries.entries, Address.WellFormed e.2 := by
  rw [← exists_linkEntries_iff code.toList]
  cases h : linkEntries code.toList libraries.entries <;> simp [link, h, Except.map]

theorem link_eq_error_iff (code : String) (libraries : LibraryMap) (e : NormalizationError) :
    link code libraries = .error e ↔
      ∃ name, e = .invalidLibraryAddress name ∧ LeastMalformed libraries.entries name := by
  have h := linkEntries_eq_error_iff libraries.addresses.ordered code.toList e
  refine Iff.trans ?_ h
  change Except.map _ (linkEntries code.toList libraries.entries) = _ ↔
    linkEntries code.toList libraries.entries = _
  cases linkEntries code.toList libraries.entries <;> simp [Except.map]

theorem exists_link_error_iff (code : String) (libraries : LibraryMap) :
    (∃ e, link code libraries = .error e) ↔ ∃ name, Malformed libraries.entries name := by
  have hok := exists_link_iff code libraries
  constructor
  · rintro ⟨e, he⟩
    obtain ⟨name, -, hm, -⟩ := (link_eq_error_iff code libraries e).1 he
    exact ⟨name, hm⟩
  · rintro ⟨name, address, hm, hw⟩
    cases hl : link code libraries with
    | ok linked => exact absurd (hok.1 ⟨linked, hl⟩ _ hm) hw
    | error e => exact ⟨e, rfl⟩

theorem exists_leastMalformed_iff (libraries : LibraryMap) :
    (∃ name, LeastMalformed libraries.entries name) ↔ ∃ name, Malformed libraries.entries name := by
  rw [← exists_link_error_iff ""]
  simp [link_eq_error_iff]

theorem linkEntries_of_link {code linked : String} {libraries : LibraryMap}
    (h : link code libraries = .ok linked) :
    linkEntries code.toList libraries.entries = .ok linked.toList := by
  cases hl : linkEntries code.toList libraries.entries with
  | error e => simp [link, hl, Except.map] at h
  | ok l =>
    rw [link, hl, Except.map, Except.ok.injEq] at h
    rw [← h, String.toList_ofList]

/-- The text differs from the code in some windows only. In each of them the code has a placeholder
of a library, and the text has the address of such a library. -/
structure Written (libraries : Entries String) (code linked : List Char) (places : List Nat) :
    Prop where
  length_eq : linked.length = code.length
  apart : places.Pairwise Apart
  resolved : ∀ i ∈ places, ∃ name address, (name, address) ∈ libraries ∧
    Address.WellFormed address ∧
    (window code i = (Placeholder.label name).text ∨
      window code i = (Placeholder.hashed name).text) ∧
    window linked i = Address.padded address
  unchanged : ∀ k, (∀ i ∈ places, k < i ∨ i + 40 ≤ k) → linked[k]? = code[k]?

namespace Written

variable {libraries : Entries String} {code s : List Char} {places : List Nat}

theorem nothing : Written libraries code code [] where
  length_eq := rfl
  apart := List.Pairwise.nil
  resolved := by simp
  unchanged := fun _ _ => rfl

theorem apart_of_window (h : Written libraries code s places) {j : Nat} {p : Placeholder}
    (hj : window s j = p.text) : ∀ i ∈ places, Apart i j := by
  intro i hi
  obtain ⟨_, address, -, hw, -, hwritten⟩ := h.resolved i hi
  obtain ⟨a, ha⟩ := Option.isSome_iff_exists.1 (Address.wellFormed_iff_isSome.1 hw)
  rw [← (Address.parse?_eq_some_iff.1 ha).2] at hwritten
  exact Bytecode.apart_of_window hwritten hj

theorem window_eq (h : Written libraries code s places) {j : Nat} {p : Placeholder}
    (hj : window s j = p.text) : window code j = p.text := by
  have hapart := h.apart_of_window hj
  rw [← hj]
  apply window_congr
  intro k hk hk'
  refine (h.unchanged k fun i hi => ?_).symm
  rcases hapart i hi with hij | hij <;> omega

theorem write (h : Written libraries code s places) {name address : String} {a : Address}
    {p : Placeholder} {i : Nat} (hm : (name, address) ∈ libraries)
    (ha : Address.parse? address = some a) (hp : Stands p name) (hi : window s i = p.text) :
    Written libraries code (overwrite s i a) (i :: places) := by
  have hlen := add_le_length_of_window hi
  have hapart := h.apart_of_window hi
  have hwrite := Address.parse?_eq_some_iff.1 ha
  refine ⟨by rw [length_overwrite a hlen, h.length_eq], ?_, List.forall_mem_cons.2 ⟨?_, ?_⟩, ?_⟩
  · exact List.pairwise_cons.2 ⟨fun j hj => (hapart j hj).symm, h.apart⟩
  · refine ⟨name, address, hm, hwrite.1, ?_, by rw [window_overwrite_self a hlen, hwrite.2]⟩
    rw [h.window_eq hi]
    exact hp.imp (congrArg _) (congrArg _)
  · intro j hj
    rw [window_overwrite_of_apart a hlen (hapart j hj).symm]
    exact h.resolved j hj
  · intro k hk
    obtain ⟨hki, hk⟩ := List.forall_mem_cons.1 hk
    rw [getElem?_overwrite a hlen, if_neg (by omega)]
    exact h.unchanged k hk

end Written

theorem exists_written_of_linkEntries {libraries : Entries String} {code linked : List Char}
    (h : linkEntries code libraries = .ok linked) :
    ∃ places, Written libraries code linked places :=
  linkEntries_induction (P := fun s => ∃ places, Written libraries code s places)
    (fun _ _ _ _ _ i hm ha hp hi ⟨places, hs⟩ => ⟨i :: places, hs.write hm ha hp hi⟩)
    h ⟨[], .nothing⟩

/-- Linking touches nothing but placeholders. -/
theorem link_written (code : String) (libraries : LibraryMap)
    (h : ∀ e ∈ libraries.entries, Address.WellFormed e.2) :
    ∃ linked places, link code libraries = .ok linked ∧
      Written libraries.entries code.toList linked.toList places := by
  obtain ⟨linked, hl⟩ := (exists_link_iff code libraries).2 h
  obtain ⟨places, hw⟩ := exists_written_of_linkEntries (linkEntries_of_link hl)
  exact ⟨linked, places, hl, hw⟩

/-- Two libraries whose names agree in the first 36 characters have one label. -/
theorem link_written_shared_label :
    (∀ e ∈ (LibraryMap.ofList [("L", "0x1F"), ("L_", "0x")]).entries, Address.WellFormed e.2) ∧
      ∃ linked places,
        link "60__L_____________________________________60"
            (LibraryMap.ofList [("L", "0x1F"), ("L_", "0x")]) = .ok linked ∧
          Written (LibraryMap.ofList [("L", "0x1F"), ("L_", "0x")]).entries
            "60__L_____________________________________60".toList linked.toList places :=
  ⟨by decide, link_written _ _ (by decide)⟩

theorem absent_of_linkEntries {libraries : Entries String} {code linked : List Char}
    (h : linkEntries code libraries = .ok linked) :
    ∀ e ∈ libraries, ∀ p, Stands p e.1 → Absent p linked := by
  induction libraries generalizing code with
  | nil => simp
  | cons entry rest ih =>
    obtain ⟨n, address⟩ := entry
    cases ha : Address.parse? address with
    | none =>
      rw [linkEntries_cons_of_malformed code rest ha] at h
      contradiction
    | some a =>
      rw [linkEntries_cons_of_wellFormed code rest ha] at h
      refine List.forall_mem_cons.2 ⟨fun p hp => ?_, ih h⟩
      exact linkEntries_induction (P := Absent p)
        (fun _ _ b _ _ _ _ _ _ hi hs => hs.overwrite b (add_le_length_of_window hi)) h
        (absent_linkLibrary hp a code)

theorem linkEntries_of_absent {libraries : Entries String} {code : List Char}
    (hw : ∀ e ∈ libraries, Address.WellFormed e.2)
    (h : ∀ e ∈ libraries, ∀ p, Stands p e.1 → Absent p code) :
    linkEntries code libraries = .ok code := by
  induction libraries with
  | nil => rfl
  | cons entry rest ih =>
    obtain ⟨n, address⟩ := entry
    obtain ⟨ha, hr⟩ := List.forall_mem_cons.1 hw
    obtain ⟨hn, hs⟩ := List.forall_mem_cons.1 h
    obtain ⟨a, ha⟩ := Option.isSome_iff_exists.1 (Address.wellFormed_iff_isSome.1 ha)
    rw [linkEntries_cons_of_wellFormed code rest ha, linkLibrary_of_absent a hn]
    exact ih hr hs

/-- Linking fails because of the map alone, with the smallest name whose address is malformed.
Where it succeeds no placeholder of the map is left, and linking again changes nothing. -/
theorem link_exhaustive (code : String) (libraries : LibraryMap) :
    ((∃ e, link code libraries = .error e) ↔ ∃ name, Malformed libraries.entries name) ∧
    (∀ e, link code libraries = .error e ↔
      ∃ name, e = .invalidLibraryAddress name ∧ LeastMalformed libraries.entries name) ∧
    (∀ linked, link code libraries = .ok linked →
      (∀ e ∈ libraries.entries,
        ¬ (Placeholder.label e.1).text <:+: linked.toList ∧
        ¬ (Placeholder.hashed e.1).text <:+: linked.toList) ∧
      link linked libraries = .ok linked) := by
  refine ⟨exists_link_error_iff code libraries, link_eq_error_iff code libraries,
    fun linked h => ?_⟩
  have hl := linkEntries_of_link h
  have hgone := absent_of_linkEntries hl
  have hw := (exists_link_iff code libraries).1 ⟨linked, h⟩
  refine ⟨fun e he => ⟨?_, ?_⟩, ?_⟩
  · exact absent_iff.1 (hgone e he _ (.inl rfl))
  · exact absent_iff.1 (hgone e he _ (.inr rfl))
  · rw [link, linkEntries_of_absent hw hgone, Except.map, String.ofList_toList]

end SolidityHost.Bytecode
