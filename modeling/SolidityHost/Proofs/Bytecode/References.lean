import SolidityHost.Bytecode.Reference
import SolidityHost.Proofs.Bytecode.Linking

/-!
# What is left to link

The scan for references meets every window that has the shape of a placeholder and no line break
inside, except those that begin in a window which it took. So it finds nothing exactly if there is
no such window at all. Linking makes no window of that shape, and leaves none of its libraries.
-/

set_option autoImplicit false

namespace SolidityHost.Bytecode

theorem take_forty (s : List Char) :
    s.take 40 = s.take 2 ++ ((s.drop 2).take 36 ++ (s.drop 38).take 2) := by
  have h38 : (s.drop 2).drop 36 = s.drop 38 := by rw [List.drop_drop]
  rw [← h38, ← List.take_add, ← List.take_add]

/-- The scan looks for placeholders without a line break. -/
theorem bodyAt?_eq_some_iff {s body : List Char} :
    bodyAt? s = some body ↔
      ∃ p : Placeholder, p.body = body ∧ '\n' ∉ p.body ∧ window s 0 = p.text := by
  rw [bodyAt?]
  constructor
  · intro h
    split at h
    case isTrue hshape =>
      obtain ⟨hfront, hlen, hend, hline⟩ := hshape
      rw [Option.some.injEq] at h
      refine ⟨⟨_, hlen⟩, h, hline, ?_⟩
      have hforty := take_forty s
      rwa [hfront, hend] at hforty
    case isFalse => contradiction
  · rintro ⟨p, rfl, hline, htext⟩
    obtain ⟨rest, rfl⟩ := List.isPrefixOf_iff_prefix.1 (window_zero_eq_text_iff.1 htext)
    have hbehind : (p.text ++ rest).drop 2 = p.body ++ ('_' :: '_' :: rest) := by
      simp [Placeholder.text]
    have hend : (p.text ++ rest).drop 38 = '_' :: '_' :: rest := by
      rw [← List.drop_drop (i := 36) (j := 2), hbehind]
      exact List.drop_left' p.length_body
    have hbody : ((p.text ++ rest).drop 2).take 36 = p.body := by
      rw [hbehind]
      exact List.take_left' p.length_body
    rw [hbody, hend, if_pos ⟨rfl, p.length_body, rfl, hline⟩]

theorem scan_eq_nil_iff (offset : Nat) (s : List Char) :
    scan offset s = [] ↔ ∀ i (p : Placeholder), '\n' ∉ p.body → window s i ≠ p.text := by
  induction offset, s using scan.induct with
  | case1 offset =>
    simp only [scan, true_iff]
    exact fun i p _ h => by simp [window, Placeholder.text] at h
  | case2 offset c rest body hbody =>
    rw [scan, hbody]
    obtain ⟨p, -, hline, hp⟩ := bodyAt?_eq_some_iff.1 hbody
    simp only [reduceCtorEq, false_iff, not_forall]
    exact ⟨0, p, hline, fun h => h hp⟩
  | case3 offset c rest hbody ih =>
    rw [scan, hbody]
    refine ih.trans ⟨?_, fun h i => h (i + 1)⟩
    rintro h (_ | i) p hline hp
    · have hsome := bodyAt?_eq_some_iff.2 ⟨p, rfl, hline, hp⟩
      rw [hbody] at hsome
      contradiction
    · exact h i p hline hp

theorem references_eq_empty {code : String}
    (h : ∀ i (p : Placeholder), '\n' ∉ p.body → window code.toList i ≠ p.text) :
    references code = Dict.empty := by
  rw [references, (scan_eq_nil_iff 0 code.toList).2 h]
  rfl

/-- Linking makes no reference, and leaves none if the map has a library for each. -/
theorem link_references (code : String) (libraries : LibraryMap)
    (h : ∀ e ∈ libraries.entries, Address.WellFormed e.2) :
    ∃ linked, link code libraries = .ok linked ∧
      (∀ i (p : Placeholder), '\n' ∉ p.body → window linked.toList i = p.text →
        window code.toList i = p.text ∧ ∀ e ∈ libraries.entries, ¬ Stands p e.1) ∧
      ((∀ i (p : Placeholder), '\n' ∉ p.body → window code.toList i = p.text →
          ∃ e ∈ libraries.entries, Stands p e.1) →
        references linked = Dict.empty) := by
  obtain ⟨linked, hlink⟩ := (exists_link_iff code libraries).2 h
  have hl := linkEntries_of_link hlink
  obtain ⟨places, hw⟩ := exists_written_of_linkEntries hl
  have hgone := absent_of_linkEntries hl
  refine ⟨linked, hlink, fun i p _ hp => ⟨hw.window_eq hp, ?_⟩, fun hcovered => ?_⟩
  · exact fun e he hs => hgone e he p hs i hp
  · refine references_eq_empty fun i p hline hp => ?_
    obtain ⟨e, he, hs⟩ := hcovered i p hline (hw.window_eq hp)
    exact hgone e he p hs i hp

/-- The placeholder of a library that the map does not have is left as it is. -/
theorem link_references_missing :
    (∀ e ∈ (LibraryMap.ofList [("M", "0x1F")]).entries, Address.WellFormed e.2) ∧
      ∃ linked,
        link "60__L_____________________________________60"
            (LibraryMap.ofList [("M", "0x1F")]) = .ok linked ∧
          (∀ i (p : Placeholder), '\n' ∉ p.body → window linked.toList i = p.text →
            window "60__L_____________________________________60".toList i = p.text ∧
              ∀ e ∈ (LibraryMap.ofList [("M", "0x1F")]).entries, ¬ Stands p e.1) ∧
          ((∀ i (p : Placeholder), '\n' ∉ p.body →
              window "60__L_____________________________________60".toList i = p.text →
                ∃ e ∈ (LibraryMap.ofList [("M", "0x1F")]).entries, Stands p e.1) →
            references linked = Dict.empty) :=
  ⟨by decide, link_references _ _ (by decide)⟩

end SolidityHost.Bytecode
