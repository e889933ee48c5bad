import SolidityHost.Proofs.Bytecode.Segments
import SolidityHost.Proofs.Bytecode.Staging

/-!
# Where references point

A reference counts bytes of the text in front of a placeholder, linking counts characters. Each
reference to a library stands in front of a window where linking puts the address of the library,
and it points there as long as the characters in front have at most one byte more than there are
characters. A name of characters of several bytes in front shifts it.
-/

set_option autoImplicit false

namespace SolidityHost

def LinkReference.digits (r : LinkReference) (code : List Char) : List Char :=
  (code.drop (2 * r.start)).take (2 * r.length)

namespace Bytecode

variable {p : Placeholder} {code : List Char} {libraries : Entries String}
  {segments : List Segment}

def Segment.Links (libraries : Entries String) : Segment → Prop
  -- whole bytes of code, or a placeholder of one of the libraries
  | chunk text => text.all Text.isHexDigit = true ∧ text.length % 2 = 0
  | label name => ∃ e ∈ libraries, e.1 = name
  | hashed name => ∃ e ∈ libraries, e.1 = name

instance : DecidablePred (Segment.Links libraries)
  | .chunk text => inferInstanceAs (Decidable (_ ∧ text.length % 2 = 0))
  | .label name => inferInstanceAs (Decidable (∃ e ∈ libraries, e.1 = name))
  | .hashed name => inferInstanceAs (Decidable (∃ e ∈ libraries, e.1 = name))

theorem byteCount_bounds (s : List Char) : s.length ≤ byteCount s ∧ byteCount s ≤ 4 * s.length := by
  induction s with
  | nil => decide
  | cons c s ih =>
    have hpos := c.utf8Size_pos
    have hle := c.utf8Size_le_four
    simp only [byteCount, List.foldr_cons, List.length_cons] at ih ⊢
    omega

/-- What is found is a placeholder, and counts the bytes in front of it. -/
theorem exists_window_of_mem_scan {offset : Nat} {key : String} {r : LinkReference}
    (h : (key, r) ∈ scan offset code) :
    ∃ (p : Placeholder) (i : Nat), p.key = key ∧ window code i = p.text ∧
      r = ⟨(offset + byteCount (code.take i)) / 2, addressLength⟩ := by
  -- along the scan: what was passed over is counted in `offset`
  induction offset, code using scan.induct with
  | case1 offset => simp [scan] at h
  | case2 offset c rest body hbody ih =>
    rw [scan_of_bodyAt? hbody] at h
    rcases List.mem_cons.1 h with h | h
    · obtain ⟨p, rfl, -, hp⟩ := bodyAt?_eq_some_iff.1 hbody
      obtain ⟨rfl, rfl⟩ := Prod.mk.inj h
      exact ⟨p, 0, rfl, hp, rfl⟩
    · obtain ⟨p, i, hkey, hp, rfl⟩ := ih h
      refine ⟨p, 40 + i, hkey, ?_, ?_⟩
      · rw [← hp, window, window, ← List.drop_drop, List.drop_succ_cons]
      · rw [List.take_add, byteCount_append, Nat.add_assoc, List.drop_succ_cons]
  | case3 offset c rest hbody ih =>
    rw [scan, hbody] at h
    obtain ⟨p, i, hkey, hp, rfl⟩ := ih h
    refine ⟨p, i + 1, hkey, hp, ?_⟩
    rw [List.take_succ_cons, Nat.add_assoc]
    rfl

theorem Segment.Links.length_even {s : Segment} (h : s.Links libraries) :
    s.text.length % 2 = 0 := by
  cases s with
  | chunk text => exact h.2
  | label name => rw [Segment.text, Placeholder.length_text]
  | hashed name => rw [Segment.text, Placeholder.length_text]

theorem Segment.Links.underscore {s : Segment} (h : s.Links libraries) (hmem : '_' ∈ s.text) :
    ∃ p, s.placeholder? = some p ∧ Known libraries p := by
  cases s with
  | chunk text => exact absurd (List.all_eq_true.1 h.1 _ hmem) (by decide)
  | label name =>
    obtain ⟨e, he, rfl⟩ := h
    exact ⟨_, rfl, e, he, .inl rfl⟩
  | hashed name =>
    obtain ⟨e, he, rfl⟩ := h
    exact ⟨_, rfl, e, he, .inr rfl⟩

theorem window_append_add (s t : List Char) (i : Nat) :
    window (s ++ t) (s.length + i) = window t i := by
  rw [window, ← List.drop_drop, List.drop_left, window]

/-- In a row of segments every underscore belongs to a placeholder of a library, in front of which
there is an even number of characters. -/
theorem exists_window_of_underscore (h : ∀ s ∈ segments, s.Links libraries) {k : Nat}
    (hk : (assemble segments)[k]? = some '_') :
    ∃ (p : Placeholder) (j : Nat), Known libraries p ∧ window (assemble segments) j = p.text ∧
      j % 2 = 0 ∧ j ≤ k ∧ k < j + 40 := by
  induction segments generalizing k with
  | nil => simp at hk
  | cons s rest ih =>
    obtain ⟨hs, hrest⟩ := List.forall_mem_cons.1 h
    rw [assemble_cons] at hk ⊢
    rcases Nat.lt_or_ge k s.text.length with hlt | hge
    · rw [List.getElem?_append_left hlt] at hk
      obtain ⟨p, hp, hknown⟩ := hs.underscore (List.mem_of_getElem? hk)
      rw [Segment.text_of_placeholder? hp] at hlt ⊢
      rw [p.length_text] at hlt
      exact ⟨p, 0, hknown, List.take_left' p.length_text, rfl, Nat.zero_le k, by omega⟩
    · rw [List.getElem?_append_right hge] at hk
      obtain ⟨p, j, hknown, hp, heven, hjk, hkj⟩ := ih hrest hk
      have hlen := hs.length_even
      exact ⟨p, s.text.length + j, hknown, by rw [window_append_add, hp], by omega, by omega,
        by omega⟩

theorem even_of_window (h : ∀ s ∈ segments, s.Links libraries)
    (hsep : Separate (Known libraries) (assemble segments)) (hknown : Known libraries p) {i : Nat}
    (hi : window (assemble segments) i = p.text) : i % 2 = 0 := by
  obtain ⟨q, j, hq, hj, heven, hji, hij⟩ :=
    exists_window_of_underscore h (getElem?_first_of_window hi)
  rcases hsep p q i j hknown hq hi hj with rfl | hapart
  · exact heven
  · rcases hapart with hapart | hapart <;> omega

theorem owner_of_unique {e : String × String} (ho : libraries.Ordered)
    (hw : ∀ e ∈ libraries, Address.WellFormed e.2) (he : e ∈ libraries) (hp : Stands p e.1)
    (hunique : ∀ d ∈ libraries, Stands p d.1 → d.1 = e.1) :
    ∃ a, owner libraries p = some a ∧ a.digits = Address.padded e.2 := by
  obtain ⟨a, ha⟩ := Option.isSome_iff_exists.1 (Address.wellFormed_iff_isSome.1 (hw e he))
  refine ⟨a, (owner_eq_some_iff ho hw).2 ⟨e, he, hp, ha, ?_⟩, (Address.parse?_eq_some_iff.1 ha).2⟩
  exact fun d hd hdp => hunique d hd hdp ▸ String.le_refl _

theorem digits_eq_window {linked : List Char} {r : LinkReference} {i : Nat}
    (hstart : 2 * r.start = i) (hlength : r.length = 20) : r.digits linked = window linked i := by
  rw [LinkReference.digits, hstart, hlength, window]

/-- With at most one byte more than characters in front, half the bytes are half the characters. -/
theorem start_of_narrow {code : List Char} {i : Nat} (hi : i ≤ code.length) (heven : i % 2 = 0)
    (hnarrow : Utf8.width (String.ofList (code.take i)) ≤ i + 1) :
    2 * (Utf8.width (String.ofList (code.take i)) / 2) = i := by
  have hle := (byteCount_bounds (code.take i)).1
  rw [byteCount_eq_width, List.length_take, Nat.min_eq_left hi] at hle
  omega

theorem mem_placed {before : List Char} {key : String} {r : LinkReference}
    (h : (key, r) ∈ placed before segments) : ∃ s ∈ segments, s.key? = some key := by
  induction segments generalizing before with
  | nil => simp [placed] at h
  | cons s rest ih =>
    rw [placed] at h
    rcases List.mem_append.1 h with h | h
    · obtain ⟨k, hk, heq⟩ := Option.map_eq_some_iff.1 (Option.mem_toList.1 h)
      obtain ⟨rfl, -⟩ := Prod.mk.inj heq
      exact ⟨s, List.mem_cons_self, hk⟩
    · obtain ⟨d, hd, hkey⟩ := ih h
      exact ⟨d, List.mem_cons_of_mem _ hd, hkey⟩

/-- The reference is reported under the label or the hashed placeholder of the library. -/
def Shows (key name : String) : Prop :=
  key = (Placeholder.label name).key ∨ key = (Placeholder.hashed name).key

theorem stands_of_shows {key name : String} (h : Shows key name) (hp : p.key = key) :
    Stands p name :=
  h.imp (fun h => Placeholder.key_inj.1 (hp.trans h)) fun h => Placeholder.key_inj.1 (hp.trans h)

theorem legible_of_links (h : ∀ s ∈ segments, s.Links libraries)
    (hline : ∀ name, .label name ∈ segments → '\n' ∉ name.toList.take 36) :
    ∀ s ∈ segments, s.Legible := by
  intro s hs
  cases s with
  | chunk text => exact fun hmem => absurd (List.all_eq_true.1 (h _ hs).1 _ hmem) (by decide)
  | label name => exact hline name hs
  | hashed name => trivial

theorem exists_shows (h : ∀ s ∈ segments, s.Links libraries) {key : String} {r : LinkReference}
    (hlegible : ∀ s ∈ segments, s.Legible)
    (hr : (key, r) ∈ scan 0 (assemble segments)) : ∃ e ∈ libraries, Shows key e.1 := by
  have hplaced : (key, r) ∈ placed [] segments := scan_assemble hlegible [] ▸ hr
  obtain ⟨s, hs, hkey⟩ := mem_placed hplaced
  rw [s.key?_eq] at hkey
  cases s with
  | chunk text => contradiction
  | label name =>
    obtain ⟨e, he, rfl⟩ := h _ hs
    exact ⟨e, he, .inl (Option.some.inj hkey).symm⟩
  | hashed name =>
    obtain ⟨e, he, rfl⟩ := h _ hs
    exact ⟨e, he, .inr (Option.some.inj hkey).symm⟩

/-- Each reference to a library stands where linking puts the address of the library, and points
there unless the characters in front of it have several bytes more than there are characters. -/
theorem references_located {libraries : LibraryMap}
    (hw : ∀ e ∈ libraries.entries, Address.WellFormed e.2)
    (hsegments : ∀ s ∈ segments, s.Links libraries.entries)
    (hdistinct : ∀ p, ¬ Absent p (assemble segments) → ∀ e ∈ libraries.entries,
      ∀ d ∈ libraries.entries, Stands p e.1 → Stands p d.1 → e.1 = d.1)
    (hsep : Separate (Known libraries.entries) (assemble segments)) :
    ∃ linked, link (String.ofList (assemble segments)) libraries = .ok linked ∧
      ∀ key places r,
        (references (String.ofList (assemble segments))).get? key = some places → r ∈ places →
        ((∀ name, .label name ∈ segments → '\n' ∉ name.toList.take 36) →
          ∃ e ∈ libraries.entries, Shows key e.1) ∧
        ∀ e ∈ libraries.entries, Shows key e.1 →
          ∃ before, before <+: assemble segments ∧
            r = ⟨Utf8.width (String.ofList before) / 2, 20⟩ ∧
            window linked.toList before.length = Address.padded e.2 ∧
            (Utf8.width (String.ofList before) ≤ before.length + 1 →
              r.digits linked.toList = Address.padded e.2) := by
  obtain ⟨linked, hlinked⟩ := (exists_link_iff _ libraries).2 hw
  have hresolved := resolved_link hlinked (by rwa [String.toList_ofList])
  rw [String.toList_ofList] at hresolved
  refine ⟨linked, hlinked, fun key places r hplaces hr => ?_⟩
  rw [references, String.toList_ofList] at hplaces
  have hscan := mem_of_get?_gather hplaces hr
  refine ⟨fun hline => exists_shows hsegments (legible_of_links hsegments hline) hscan, ?_⟩
  intro e he hshows
  obtain ⟨p, i, hkey, hi, rfl⟩ := exists_window_of_mem_scan hscan
  have hstands := stands_of_shows hshows hkey
  have hlen := add_le_length_of_window hi
  have hbefore : ((assemble segments).take i).length = i := by
    rw [List.length_take]
    omega
  obtain ⟨a, ha, hdigits⟩ := owner_of_unique libraries.addresses.ordered hw he hstands
    fun d hd hdp => hdistinct p (fun habsent => habsent i hi) d hd e he hdp hstands
  have hwritten : window linked.toList i = Address.padded e.2 := by
    rw [← hdigits, hresolved.written p a i ha hi]
  refine ⟨(assemble segments).take i, List.take_prefix i _, ?_, ?_, fun hnarrow => ?_⟩
  · rw [Nat.zero_add, byteCount_eq_width]
    rfl
  · rw [hbefore, hwritten]
  · have heven := even_of_window hsegments hsep ⟨e, he, hstands⟩ hi
    rw [hbefore] at hnarrow
    rw [← hwritten]
    refine digits_eq_window ?_ rfl
    rw [Nat.zero_add, byteCount_eq_width]
    exact start_of_narrow (by omega) heven hnarrow

def narrow : LibraryMap := .ofList [("M", "0x3"), ("é", "0x")]

def narrowRow : List Segment := [.chunk ['6', '0'], .label "é", .label "M"]

theorem references_located_narrow :
    (∀ e ∈ narrow.entries, Address.WellFormed e.2) ∧
      (∀ s ∈ narrowRow, s.Links narrow.entries) ∧
      (∀ p, ¬ Absent p (assemble narrowRow) → ∀ e ∈ narrow.entries, ∀ d ∈ narrow.entries,
        Stands p e.1 → Stands p d.1 → e.1 = d.1) ∧
      Separate (Known narrow.entries) (assemble narrowRow) ∧
      ∃ linked, link (String.ofList (assemble narrowRow)) narrow = .ok linked ∧
        ∀ places r, (references (String.ofList (assemble narrowRow))).get? "M" = some places →
          r ∈ places → ∃ before, before <+: assemble narrowRow ∧
            r = ⟨Utf8.width (String.ofList before) / 2, 20⟩ ∧
            window linked.toList before.length = Address.padded "0x3" ∧
            (Utf8.width (String.ofList before) ≤ before.length + 1 →
              r.digits linked.toList = Address.padded "0x3") := by
  have hw : ∀ e ∈ narrow.entries, Address.WellFormed e.2 := by decide
  have hsegments : ∀ s ∈ narrowRow, s.Links narrow.entries := by decide
  have hdollar : '$' ∉ assemble narrowRow := by decide
  have hlabels : ∀ e ∈ narrow.entries, ∀ d ∈ narrow.entries,
      Placeholder.label e.1 = .label d.1 → e.1 = d.1 := by decide
  have hdistinct : ∀ p, ¬ Absent p (assemble narrowRow) → ∀ e ∈ narrow.entries,
      ∀ d ∈ narrow.entries, Stands p e.1 → Stands p d.1 → e.1 = d.1 := by
    intro p hp e he d hd hpe hpd
    have hlabel {e : String × String} (h : Stands p e.1) : p = .label e.1 :=
      h.resolve_right fun h => hp (h ▸ absent_hashed hdollar e.1)
    exact hlabels e he d hd ((hlabel hpe).symm.trans (hlabel hpd))
  have hplaces : ∀ e ∈ narrow.entries, ∀ i < (assemble narrowRow).length,
      window (assemble narrowRow) i = (Placeholder.label e.1).text → i ∈ [2, 42] := by decide
  have hsep := separate_of_places hdollar hplaces (by decide)
  obtain ⟨linked, hlinked, h⟩ := references_located hw hsegments hdistinct hsep
  refine ⟨hw, hsegments, hdistinct, hsep, linked, hlinked, fun places r hplaces hr => ?_⟩
  exact (h "M" places r hplaces hr).2 ("M", "0x3") (by decide) (.inl (by decide))

def wide : LibraryMap := .ofList [("éé", "0x1F")]

def wideRow : List Segment := [.label "éé", .label "éé"]

/-- The second reference starts one byte late, and ends behind the end of the text. -/
theorem exists_shifted_reference :
    (∀ e ∈ wide.entries, Address.WellFormed e.2) ∧
      (∀ s ∈ wideRow, s.Links wide.entries) ∧
      (∀ p, ∀ e ∈ wide.entries, ∀ d ∈ wide.entries, Stands p e.1 → Stands p d.1 → e.1 = d.1) ∧
      Separate (Known wide.entries) (assemble wideRow) ∧
      ∃ linked, link (String.ofList (assemble wideRow)) wide = .ok linked ∧
        (references (String.ofList (assemble wideRow))).get? "éé" = some [⟨0, 20⟩, ⟨21, 20⟩] ∧
        (⟨21, 20⟩ : LinkReference).digits linked.toList ≠ Address.padded "0x1F" := by
  have hw : ∀ e ∈ wide.entries, Address.WellFormed e.2 := by decide
  have hlegible : ∀ s ∈ wideRow, s.Legible := by decide
  have hdollar : '$' ∉ assemble wideRow := by decide
  have hplaces : ∀ e ∈ wide.entries, ∀ i < (assemble wideRow).length,
      window (assemble wideRow) i = (Placeholder.label e.1).text → i ∈ [0, 40] := by decide
  have hsep := separate_of_places hdollar hplaces (by decide)
  obtain ⟨linked, hlinked⟩ := (exists_link_iff (String.ofList (assemble wideRow)) wide).2 hw
  have hlength := (resolved_link hlinked (by rwa [String.toList_ofList])).length_eq
  rw [String.toList_ofList] at hlength
  have hnames : ∀ e ∈ wide.entries, ∀ d ∈ wide.entries, e.1 = d.1 := by decide
  refine ⟨hw, by decide, fun _ e he d hd _ _ => hnames e he d hd, hsep, linked, hlinked, ?_,
    fun h => ?_⟩
  · rw [references_assemble hlegible, get?_gather]
    rfl
  · have hdigits := congrArg List.length h
    rw [LinkReference.digits, List.length_take, List.length_drop, hlength] at hdigits
    exact absurd hdigits (by decide)

end Bytecode

end SolidityHost
