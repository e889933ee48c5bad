import SolidityHost.Proofs.Bytecode.Linking

/-!
# Linking as one substitution

Where no two placeholders of a text overlap, the order of writes does not matter: each window that
shows a placeholder gets the address of the library that owns the placeholder, and all else stays.
The text is determined by that, so only the owners count, and maps that own different placeholders
can be used one after the other, in either order, or as one.
-/

set_option autoImplicit false

namespace SolidityHost.Bytecode

variable {p q : Placeholder} {a : Address} {code s t : List Char}
  {f g : Placeholder → Option Address} {P Q : Placeholder → Prop}

def Separate (P : Placeholder → Prop) (s : List Char) : Prop :=
  ∀ p q i j, P p → P q → window s i = p.text → window s j = q.text → i = j ∨ Apart i j

/-- The text has the address of its owner in place of each placeholder that has one. -/
structure Resolved (f : Placeholder → Option Address) (code linked : List Char) : Prop where
  length_eq : linked.length = code.length
  written : ∀ p a i, f p = some a → window code i = p.text → window linked i = a.digits
  kept : ∀ k, (∀ p i, f p ≠ none → window code i = p.text → k < i ∨ i + 40 ≤ k) →
    linked[k]? = code[k]?

instance (i j : Nat) : Decidable (Apart i j) := inferInstanceAs (Decidable (_ ∨ _))

theorem text_inj : p.text = q.text ↔ p = q := by
  constructor
  · intro h
    obtain ⟨s, hs⟩ := p
    obtain ⟨t, ht⟩ := q
    simpa [Placeholder.text] using h
  · exact congrArg _

theorem getElem?_eq_of_window_eq {i k : Nat} (h : window s i = window t i) (hik : i ≤ k)
    (hki : k < i + 40) : s[k]? = t[k]? := by
  have hs := getElem?_window s i (k - i)
  have ht := getElem?_window t i (k - i)
  rw [if_pos (by omega), Nat.add_sub_cancel' hik] at hs ht
  rw [← hs, ← ht, h]

theorem Separate.mono (h : Separate P s) (hQ : ∀ p, Q p → P p) : Separate Q s :=
  fun p q i j hp hq => h p q i j (hQ p hp) (hQ q hq)

theorem Separate.of_windows (h : Separate P code)
    (hs : ∀ (p : Placeholder) i, window s i = p.text → window code i = p.text) : Separate P s :=
  fun p q i j hp hq hi hj => h p q i j hp hq (hs p i hi) (hs q j hj)

namespace Resolved

theorem unique (hs : Resolved f code s) (ht : Resolved f code t) : s = t := by
  apply List.ext_getElem?
  intro k
  by_cases hk : ∃ p i, f p ≠ none ∧ window code i = p.text ∧ i ≤ k ∧ k < i + 40
  · obtain ⟨p, i, hp, hi, hik, hki⟩ := hk
    obtain ⟨a, ha⟩ := Option.ne_none_iff_exists'.1 hp
    have hwindow : window s i = window t i := by
      rw [hs.written p a i ha hi, ht.written p a i ha hi]
    exact getElem?_eq_of_window_eq hwindow hik hki
  · have hout : ∀ p i, f p ≠ none → window code i = p.text → k < i ∨ i + 40 ≤ k := by
      intro p i hp hi
      by_contra hin
      exact hk ⟨p, i, hp, hi, by omega, by omega⟩
    rw [hs.kept k hout, ht.kept k hout]

theorem congr (h : Resolved f code s) (hfg : ∀ p, ¬ Absent p code → f p = g p) :
    Resolved g code s := by
  have heq {p : Placeholder} {i : Nat} (hi : window code i = p.text) : f p = g p :=
    hfg p fun habsent => habsent i hi
  refine ⟨h.length_eq, fun p a i hp hi => h.written p a i ((heq hi).trans hp) hi, ?_⟩
  exact fun k hk => h.kept k fun p i hp hi => hk p i (heq hi ▸ hp) hi

theorem apart (h : Resolved f code s) {i j : Nat} (hp : f p ≠ none) (hi : window code i = p.text)
    (hj : window s j = q.text) : Apart i j := by
  obtain ⟨a, ha⟩ := Option.ne_none_iff_exists'.1 hp
  exact apart_of_window (h.written p a i ha hi) hj

theorem window_eq (h : Resolved f code s) {j : Nat} (hj : window s j = q.text) :
    window code j = q.text := by
  rw [← hj]
  apply window_congr
  intro k hk hk'
  refine (h.kept k fun p i hp hi => ?_).symm
  rcases h.apart hp hi hj with hij | hij <;> omega

theorem window_of_none (h : Resolved f code s) (hsep : Separate P code) (hf : ∀ p, f p ≠ none → P p)
    (hq : P q) (hnone : f q = none) {j : Nat} (hj : window code j = q.text) :
    window s j = q.text := by
  rw [← hj]
  apply window_congr
  intro k hk hk'
  refine h.kept k fun p i hp hi => ?_
  rcases hsep p q i j (hf p hp) hq hi hj with rfl | hij
  · exact absurd hnone (text_inj.1 (hi.symm.trans hj) ▸ hp)
  · rcases hij with hij | hij <;> omega

theorem nothing (code : List Char) : Resolved (fun _ => none) code code where
  length_eq := rfl
  written := nofun
  kept := fun _ _ => rfl

/-- A second substitution reaches what the first one had no owner for. -/
theorem trans (h : Resolved f code s) (h' : Resolved g s t)
    (hsep : Separate (fun p => f p ≠ none ∨ g p ≠ none) code) :
    Resolved (fun p => (f p).or (g p)) code t := by
  refine ⟨h'.length_eq.trans h.length_eq, ?_, ?_⟩
  · intro p a i hp hi
    -- an address of the first substitution is out of reach of the second one
    cases hf : f p with
    | some b =>
      obtain rfl : b = a := by simpa [hf] using hp
      rw [← h.written p b i hf hi]
      apply window_congr
      intro k hk hk'
      refine h'.kept k fun q j hq hj => ?_
      have hij := h.apart (hf ▸ Option.some_ne_none b) hi hj
      rcases hij with hij | hij <;> omega
    | none =>
      have hg : g p = some a := by simpa [hf] using hp
      have hP : f p ≠ none ∨ g p ≠ none := .inr (hg ▸ Option.some_ne_none a)
      exact h'.written p a i hg (h.window_of_none hsep (fun _ => .inl) hP hf hi)
  · intro k hk
    have hs : s[k]? = code[k]? := h.kept k fun p i hp hi => hk p i (by simp [hp]) hi
    rw [← hs]
    exact h'.kept k fun p i hp hi => hk p i (by simp [hp]) (h.window_eq hi)

end Resolved

structure Replacing (p : Placeholder) (a : Address) (code s : List Char) : Prop where
  length_eq : s.length = code.length
  window_eq : ∀ i, window s i = p.text → window code i = p.text
  written : ∀ i, window code i = p.text → window s i = p.text ∨ window s i = a.digits
  kept : ∀ k, (∀ i, window code i = p.text → k < i ∨ i + 40 ≤ k) → s[k]? = code[k]?

theorem Replacing.write (hsep : Separate (· = p) code) (h : Replacing p a code s) {i : Nat}
    (hi : window s i = p.text) : Replacing p a code (overwrite s i a) := by
  have hlen := add_le_length_of_window hi
  have hcode := h.window_eq i hi
  refine ⟨by rw [length_overwrite a hlen, h.length_eq], ?_, ?_, ?_⟩
  · exact fun j hj => h.window_eq j (window_of_window_overwrite hlen hj)
  · intro j hj
    rcases hsep p p i j rfl rfl hcode hj with rfl | hij
    · exact .inr (window_overwrite_self a hlen)
    · rw [window_overwrite_of_apart a hlen hij]
      exact h.written j hj
  · intro k hk
    have hik := hk i hcode
    rw [getElem?_overwrite a hlen, if_neg (by omega)]
    exact h.kept k hk

theorem resolved_replaceAll (a : Address) (hsep : Separate (· = p) code) :
    Resolved (fun q => if q = p then some a else none) code (replaceAll p a code) := by
  have h : Replacing p a code (replaceAll p a code) :=
    replaceAll_induction (fun _ _ hi hs => hs.write hsep hi)
      ⟨rfl, fun _ => id, fun _ => .inl, fun _ _ => rfl⟩
  refine ⟨h.length_eq, ?_, ?_⟩
  · intro q b i hq hi
    obtain ⟨rfl, rfl⟩ : q = p ∧ a = b := by simpa using hq
    exact (h.written i hi).resolve_left (absent_replaceAll q a code i)
  · exact fun k hk => h.kept k fun i hi => hk p i (by simp) hi

instance (p : Placeholder) (name : String) : Decidable (Stands p name) :=
  inferInstanceAs (Decidable (_ ∨ _))

theorem resolved_linkLibrary (name : String) (a : Address) (hsep : Separate (Stands · name) code) :
    Resolved (fun p => if Stands p name then some a else none) code (linkLibrary name a code) := by
  have hlabel := resolved_replaceAll a (hsep.mono (Q := (· = .label name)) fun _ => .inl)
  have hrest := hsep.of_windows fun _ _ => hlabel.window_eq
  have hhashed := resolved_replaceAll a (hrest.mono (Q := (· = .hashed name)) fun _ => .inr)
  refine (hlabel.trans hhashed (hsep.mono fun p hp => ?_)).congr fun p _ => ?_
  · simpa [Stands] using hp
  · by_cases hl : p = .label name <;> simp [Stands, hl]

def owner : Entries String → Placeholder → Option Address
  -- the first library for which it stands owns it
  | [], _ => none
  | (name, address) :: rest, p =>
    if Stands p name then Address.parse? address else owner rest p

def Known (libraries : Entries String) (p : Placeholder) : Prop := ∃ e ∈ libraries, Stands p e.1

theorem known_of_owner {libraries : Entries String} (h : owner libraries p ≠ none) :
    Known libraries p := by
  induction libraries with
  | nil => exact absurd rfl h
  | cons e rest ih =>
    rw [owner] at h
    split at h
    case isTrue hp => exact ⟨e, List.mem_cons_self, hp⟩
    case isFalse =>
      obtain ⟨d, hd, hp⟩ := ih h
      exact ⟨d, List.mem_cons_of_mem _ hd, hp⟩

/-- Linking gives each placeholder to the first library that it stands for. -/
theorem resolved_linkEntries {libraries : Entries String}
    (hlink : linkEntries code libraries = .ok s) (hsep : Separate (Known libraries) code) :
    Resolved (owner libraries) code s := by
  induction libraries generalizing code with
  | nil =>
    rw [linkEntries, Except.ok.injEq] at hlink
    exact hlink ▸ .nothing code
  | cons e rest ih =>
    obtain ⟨name, address⟩ := e
    cases ha : Address.parse? address with
    | none =>
      rw [linkEntries_cons_of_malformed code rest ha] at hlink
      contradiction
    | some a =>
      rw [linkEntries_cons_of_wellFormed code rest ha] at hlink
      have hfirst := resolved_linkLibrary name a
        (hsep.mono fun p hp => ⟨_, List.mem_cons_self, hp⟩)
      have hrest : Resolved (owner rest) (linkLibrary name a code) s := by
        refine ih hlink ((hsep.mono fun p hp => ?_).of_windows fun _ _ => hfirst.window_eq)
        obtain ⟨d, hd, hp⟩ := hp
        exact ⟨d, List.mem_cons_of_mem _ hd, hp⟩
      refine (hfirst.trans hrest (hsep.mono fun p hp => ?_)).congr fun p _ => ?_
      · rcases hp with hp | hp
        · exact ⟨_, List.mem_cons_self, by simpa using hp⟩
        · obtain ⟨d, hd, hp⟩ := known_of_owner hp
          exact ⟨d, List.mem_cons_of_mem _ hd, hp⟩
      · rw [owner, ha]
        split <;> simp

theorem absent_hashed (h : '$' ∉ s) (name : String) : Absent (.hashed name) s := by
  intro i hi
  have hmem : '$' ∈ window s i := by simp [hi, Placeholder.text, Placeholder.hashed]
  exact h (List.mem_of_mem_drop (List.mem_of_mem_take hmem))

theorem exists_label_of_known {libraries : Entries String} (h : '$' ∉ s) (hp : ¬ Absent p s)
    (hknown : Known libraries p) : ∃ e ∈ libraries, p = .label e.1 := by
  obtain ⟨e, he, rfl | rfl⟩ := hknown
  · exact ⟨e, he, rfl⟩
  · exact absurd (absent_hashed h e.1) hp

/-- A list of all places where labels stand shows that they do not overlap. -/
theorem separate_of_places {libraries : Entries String} {places : List Nat} (h : '$' ∉ s)
    (hplaces : ∀ e ∈ libraries, ∀ i < s.length,
      window s i = (Placeholder.label e.1).text → i ∈ places)
    (hapart : ∀ i ∈ places, ∀ j ∈ places, i = j ∨ Apart i j) : Separate (Known libraries) s := by
  have hmem {p : Placeholder} {i : Nat} (hp : Known libraries p) (hi : window s i = p.text) :
      i ∈ places := by
    obtain ⟨e, he, rfl⟩ := exists_label_of_known h (fun habsent => habsent i hi) hp
    have hlen := add_le_length_of_window hi
    exact hplaces e he i (by omega) hi
  exact fun p q i j hp hq hi hj => hapart i (hmem hp hi) j (hmem hq hj)

end SolidityHost.Bytecode
