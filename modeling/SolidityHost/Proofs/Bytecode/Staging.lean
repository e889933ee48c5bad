import SolidityHost.Proofs.Bytecode.Resolution
import SolidityHost.Proofs.Dict

/-!
# Linking in stages

Libraries of two maps can be linked in either order, or all at once. A map takes its libraries in
the order of their names, so of several libraries with one placeholder the smallest name owns it.
Putting two maps together mixes their names but changes no owner, as long as no placeholder in the
text stands for libraries of both.
-/

set_option autoImplicit false

namespace SolidityHost

namespace LibraryMap

theorem mem_entries_insert {m : LibraryMap} {name : String} (address : String)
    (hnew : ∀ e ∈ m.entries, e.1 ≠ name) (e : String × String) :
    e ∈ (m.insert name address).entries ↔ e = (name, address) ∨ e ∈ m.entries :=
  Entries.mem_insert_of_new address hnew e

theorem mem_entries_insertAll {m : LibraryMap} {pairs : Entries String} (ho : pairs.Ordered)
    (hnew : ∀ d ∈ m.entries, ∀ e ∈ pairs, d.1 ≠ e.1) (e : String × String) :
    e ∈ (m.insertAll pairs).entries ↔ e ∈ m.entries ∨ e ∈ pairs := by
  induction pairs generalizing m with
  | nil => simp [insertAll]
  | cons p rest ih =>
    obtain ⟨hp, hrest⟩ := List.pairwise_cons.1 ho
    have hm := mem_entries_insert p.2 fun d hd => hnew d hd p List.mem_cons_self
    have hnew' : ∀ d ∈ (m.insert p.1 p.2).entries, ∀ e ∈ rest, d.1 ≠ e.1 := by
      intro d hd e he heq
      rcases (hm d).1 hd with rfl | hd
      · exact String.lt_irrefl _ (heq ▸ hp e he)
      · exact hnew d hd e (List.mem_cons_of_mem _ he) heq
    rw [insertAll, List.foldl_cons]
    refine (ih hrest hnew').trans ?_
    rw [hm, List.mem_cons, or_assoc, or_left_comm]

end LibraryMap

namespace Bytecode

variable {p : Placeholder} {a : Address} {libraries others : Entries String}

theorem owner_eq_some_iff (ho : libraries.Ordered)
    (hw : ∀ e ∈ libraries, Address.WellFormed e.2) :
    owner libraries p = some a ↔
      ∃ e ∈ libraries, Stands p e.1 ∧ Address.parse? e.2 = some a ∧
        ∀ d ∈ libraries, Stands p d.1 → e.1 ≤ d.1 := by
  induction libraries with
  | nil => simp [owner]
  | cons e rest ih =>
    obtain ⟨hlt, hrest⟩ := List.pairwise_cons.1 ho
    have hle : ∀ d ∈ e :: rest, e.1 ≤ d.1 :=
      List.forall_mem_cons.2
        ⟨String.le_refl _, fun d hd => String.not_lt.1 (String.lt_asymm (hlt d hd))⟩
    rw [owner]
    split
    case isTrue hp =>
      constructor
      · exact fun ha => ⟨e, List.mem_cons_self, hp, ha, fun d hd _ => hle d hd⟩
      · rintro ⟨d, hd, hdp, ha, hleast⟩
        rcases List.mem_cons.1 hd with rfl | hd
        · exact ha
        · exact absurd (hlt d hd) (String.not_lt.2 (hleast e List.mem_cons_self hp))
    case isFalse hp =>
      rw [ih hrest fun d hd => hw d (List.mem_cons_of_mem _ hd)]
      simp only [List.exists_mem_cons_iff, List.forall_mem_cons, hp, false_and, false_or,
        false_implies, true_and]

theorem owner_congr (ho : libraries.Ordered) (hw : ∀ e ∈ libraries, Address.WellFormed e.2)
    (ho' : others.Ordered) (hw' : ∀ e ∈ others, Address.WellFormed e.2)
    (h : ∀ e, Stands p e.1 → (e ∈ libraries ↔ e ∈ others)) :
    owner libraries p = owner others p := by
  ext a
  rw [owner_eq_some_iff ho hw, owner_eq_some_iff ho' hw']
  constructor
  · rintro ⟨e, he, hp, ha, hleast⟩
    exact ⟨e, (h e hp).1 he, hp, ha, fun d hd hdp => hleast d ((h d hdp).2 hd) hdp⟩
  · rintro ⟨e, he, hp, ha, hleast⟩
    exact ⟨e, (h e hp).2 he, hp, ha, fun d hd hdp => hleast d ((h d hdp).1 hd) hdp⟩

theorem owner_eq_none (h : ¬ Known libraries p) : owner libraries p = none :=
  not_ne_iff.1 fun hp => h (known_of_owner hp)

theorem owner_union {first second both : LibraryMap}
    (hfirst : ∀ e ∈ first.entries, Address.WellFormed e.2)
    (hsecond : ∀ e ∈ second.entries, Address.WellFormed e.2)
    (hboth : ∀ e, e ∈ both.entries ↔ e ∈ first.entries ∨ e ∈ second.entries)
    (hp : Known first.entries p → ¬ Known second.entries p) :
    owner both.entries p = (owner first.entries p).or (owner second.entries p) := by
  have hw : ∀ e ∈ both.entries, Address.WellFormed e.2 := fun e he =>
    ((hboth e).1 he).elim (hfirst e) (hsecond e)
  by_cases hknown : Known first.entries p
  · rw [owner_eq_none (hp hknown), Option.or_none]
    refine owner_congr both.addresses.ordered hw first.addresses.ordered hfirst fun e he => ?_
    rw [hboth, or_iff_left fun hmem => hp hknown ⟨e, hmem, he⟩]
  · rw [owner_eq_none hknown, Option.none_or]
    refine owner_congr both.addresses.ordered hw second.addresses.ordered hsecond fun e he => ?_
    rw [hboth, or_iff_right fun hmem => hknown ⟨e, hmem, he⟩]

theorem known_union {first second both : LibraryMap}
    (hboth : ∀ e, e ∈ both.entries ↔ e ∈ first.entries ∨ e ∈ second.entries) :
    Known both.entries p ↔ Known first.entries p ∨ Known second.entries p := by
  simp only [Known, hboth, or_and_right, exists_or]

theorem resolved_link {code linked : String} {libraries : LibraryMap}
    (h : link code libraries = .ok linked)
    (hsep : Separate (Known libraries.entries) code.toList) :
    Resolved (owner libraries.entries) code.toList linked.toList :=
  resolved_linkEntries (linkEntries_of_link h) hsep

/-- Linking with one map and then with another is one substitution. -/
theorem exists_resolved_stages (code : String) {first second : LibraryMap}
    (hfirst : ∀ e ∈ first.entries, Address.WellFormed e.2)
    (hsecond : ∀ e ∈ second.entries, Address.WellFormed e.2)
    (hsep : Separate (fun p => Known first.entries p ∨ Known second.entries p) code.toList) :
    ∃ linked, (link code first >>= fun halfway => link halfway second) = .ok linked ∧
      Resolved (fun p => (owner first.entries p).or (owner second.entries p)) code.toList
        linked.toList := by
  obtain ⟨halfway, hhalfway⟩ := (exists_link_iff code first).2 hfirst
  obtain ⟨linked, hlinked⟩ := (exists_link_iff halfway second).2 hsecond
  have h := resolved_link hhalfway (hsep.mono fun p => .inl)
  have h' := resolved_link hlinked ((hsep.mono fun p => .inr).of_windows fun _ _ => h.window_eq)
  refine ⟨linked, by rw [hhalfway]; exact hlinked, h.trans h' (hsep.mono fun p hp => ?_)⟩
  exact hp.imp known_of_owner known_of_owner

/-- Linking with two maps, in either order or as one, gives one text. -/
theorem link_staged (code : String) {first second : LibraryMap}
    (hfirst : ∀ e ∈ first.entries, Address.WellFormed e.2)
    (hsecond : ∀ e ∈ second.entries, Address.WellFormed e.2)
    (hnames : ∀ e ∈ first.entries, ∀ d ∈ second.entries, e.1 ≠ d.1)
    (hshared : ∀ p, ¬ Absent p code.toList →
      Known first.entries p → ¬ Known second.entries p)
    (hsep : Separate (fun p => Known first.entries p ∨ Known second.entries p) code.toList) :
    ∃ linked, (link code first >>= fun halfway => link halfway second) = .ok linked ∧
      (link code second >>= fun halfway => link halfway first) = .ok linked ∧
      link code (first.insertAll second.entries) = .ok linked := by
  have hboth := LibraryMap.mem_entries_insertAll second.addresses.ordered hnames
  obtain ⟨linked, hlinked, h⟩ := exists_resolved_stages code hfirst hsecond hsep
  obtain ⟨turned, hturned, hturn⟩ :=
    exists_resolved_stages code hsecond hfirst (hsep.mono fun p => Or.symm)
  obtain ⟨whole, hwhole⟩ := (exists_link_iff code (first.insertAll second.entries)).2
    fun e he => ((hboth e).1 he).elim (hfirst e) (hsecond e)
  have hone := resolved_link hwhole (hsep.mono fun p => (known_union hboth).1)
  have hturned_eq : turned = linked := by
    refine String.toList_inj.1 ((hturn.congr fun p hp => ?_).unique h)
    by_cases hknown : Known first.entries p
    · simp [owner_eq_none (hshared p hp hknown)]
    · simp [owner_eq_none hknown]
  have hwhole_eq : whole = linked :=
    String.toList_inj.1 ((hone.congr fun p hp =>
      owner_union hfirst hsecond hboth (hshared p hp)).unique h)
  exact ⟨linked, hlinked, hturned_eq ▸ hturned, hwhole_eq ▸ hwhole⟩

def outer : LibraryMap := .ofList [("L", "0x1F"), ("N", "0x"), ("N_", "0x2")]

def inner : LibraryMap := .ofList [("M", "0x3")]

def twoLabels : String := "__N_____________________________________60__M_____________________________________"

theorem link_staged_interleaved :
    (∀ e ∈ outer.entries, Address.WellFormed e.2) ∧
      (∀ e ∈ inner.entries, Address.WellFormed e.2) ∧
      (∀ e ∈ outer.entries, ∀ d ∈ inner.entries, e.1 ≠ d.1) ∧
      (∀ p, ¬ Absent p twoLabels.toList → Known outer.entries p → ¬ Known inner.entries p) ∧
      Separate (fun p => Known outer.entries p ∨ Known inner.entries p) twoLabels.toList ∧
      ∃ linked, (link twoLabels outer >>= fun halfway => link halfway inner) = .ok linked ∧
        (link twoLabels inner >>= fun halfway => link halfway outer) = .ok linked ∧
        link twoLabels (outer.insertAll inner.entries) = .ok linked := by
  have houter : ∀ e ∈ outer.entries, Address.WellFormed e.2 := by decide
  have hinner : ∀ e ∈ inner.entries, Address.WellFormed e.2 := by decide
  have hnames : ∀ e ∈ outer.entries, ∀ d ∈ inner.entries, e.1 ≠ d.1 := by decide
  have hdollar : '$' ∉ twoLabels.toList := by decide
  have hlabels : ∀ e ∈ outer.entries, ∀ d ∈ inner.entries,
      Placeholder.label e.1 ≠ .label d.1 := by decide
  have hshared : ∀ p, ¬ Absent p twoLabels.toList →
      Known outer.entries p → ¬ Known inner.entries p := by
    intro p hp hknown hknown'
    obtain ⟨e, he, hpe⟩ := exists_label_of_known hdollar hp hknown
    obtain ⟨d, hd, hpd⟩ := exists_label_of_known hdollar hp hknown'
    exact hlabels e he d hd (hpe.symm.trans hpd)
  have hplaces : ∀ e ∈ outer.entries ++ inner.entries, ∀ i < twoLabels.toList.length,
      window twoLabels.toList i = (Placeholder.label e.1).text → i ∈ [0, 42] := by decide
  have hsep : Separate (fun p => Known outer.entries p ∨ Known inner.entries p)
      twoLabels.toList := by
    refine (separate_of_places hdollar hplaces (by decide)).mono fun p hp => ?_
    simpa only [Known, List.mem_append, or_and_right, exists_or] using hp
  exact ⟨houter, hinner, hnames, hshared, hsep,
    link_staged twoLabels houter hinner hnames hshared hsep⟩

end Bytecode

end SolidityHost
