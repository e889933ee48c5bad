import Mathlib.Data.List.Induction
import Mathlib.Data.List.Infix
import SolidityHost.Proofs.Bytecode.References
import SolidityHost.Proofs.Text.Utf8

/-!
# Keys of references

A reference is reported under the body of its placeholder without underscores at the end. Bodies
have one length, so the key determines the placeholder: a library is found under the key of its
label or of its hashed placeholder, and under no other.
-/

set_option autoImplicit false

namespace SolidityHost.Bytecode

theorem shownName_append_underscores (s : List Char) (n : Nat) :
    shownName (s ++ List.replicate n '_') = shownName s := by
  have hall : ∀ c ∈ List.replicate n '_', decide (c = '_') = true := by
    intro c hc
    simp [List.eq_of_mem_replicate hc]
  rw [shownName, List.reverse_append, List.reverse_replicate, List.dropWhile_append_of_pos hall]
  rfl

theorem shownName_of_getLast? {s : List Char} (h : s.getLast? ≠ some '_') :
    shownName s = String.ofList s := by
  have hdrop : s.reverse.dropWhile (· = '_') = s.reverse := by
    rw [List.dropWhile_eq_self_iff]
    intro hlen hc
    apply h
    rw [List.getLast?_eq_head?_reverse, List.head?_eq_getElem?, List.getElem?_eq_getElem hlen]
    simpa using hc
  rw [shownName, hdrop, List.reverse_reverse]

theorem exists_eq_shownName_append (s : List Char) :
    ∃ n, s = (shownName s).toList ++ List.replicate n '_' := by
  have hall : ∀ c ∈ s.reverse.takeWhile (· = '_'), c = '_' := by
    intro c hc
    simpa using List.mem_takeWhile_imp hc
  refine ⟨(s.reverse.takeWhile (· = '_')).length, ?_⟩
  calc s = (s.reverse.takeWhile (· = '_') ++ s.reverse.dropWhile (· = '_')).reverse := by
        rw [List.takeWhile_append_dropWhile, List.reverse_reverse]
    _ = (s.reverse.dropWhile (· = '_')).reverse ++ (s.reverse.takeWhile (· = '_')).reverse :=
        List.reverse_append
    _ = (shownName s).toList ++
          List.replicate (s.reverse.takeWhile (· = '_')).length '_' := by
        rw [shownName, String.toList_ofList, List.eq_replicate_of_mem hall, List.reverse_replicate,
          List.length_replicate]

/-- The longest beginning that does not end in an underscore. -/
def untrailed (s : List Char) : List Char :=
  (s.inits.filter fun t => t.getLast? ≠ some '_').getLastD []

theorem untrailed_concat_underscore (s : List Char) : untrailed (s ++ ['_']) = untrailed s := by
  simp [untrailed]

theorem untrailed_concat {c : Char} (h : c ≠ '_') (s : List Char) :
    untrailed (s ++ [c]) = s ++ [c] := by
  simp [untrailed, List.filter_append, h]

theorem shownName_eq_untrailed (s : List Char) : shownName s = String.ofList (untrailed s) := by
  induction s using List.reverseRecOn with
  | nil => rfl
  | append_singleton s c ih =>
    by_cases hc : c = '_'
    · rw [hc, untrailed_concat_underscore, ← ih]
      exact shownName_append_underscores s 1
    · rw [untrailed_concat hc]
      exact shownName_of_getLast? (by simp [hc])

theorem eq_of_shownName_eq {s t : List Char} (hlen : s.length = t.length)
    (h : shownName s = shownName t) : s = t := by
  obtain ⟨m, hs⟩ := exists_eq_shownName_append s
  obtain ⟨n, ht⟩ := exists_eq_shownName_append t
  have hmn : m = n := by
    have hs' := congrArg List.length hs
    have ht' := congrArg List.length ht
    simp only [List.length_append, List.length_replicate, h] at hs' ht'
    omega
  rw [hs, ht, h, hmn]

end Bytecode

namespace Placeholder

def key (p : Placeholder) : String := Bytecode.shownName p.body

theorem key_inj {p q : Placeholder} : p.key = q.key ↔ p = q := by
  constructor
  · intro h
    obtain ⟨s, hs⟩ := p
    obtain ⟨t, ht⟩ := q
    rw [mk.injEq]
    exact Bytecode.eq_of_shownName_eq (hs.trans ht.symm) h
  · exact congrArg key

theorem key_label (name : String) :
    (label name).key = String.ofList (Bytecode.untrailed (name.toList.take 36)) := by
  rw [← Bytecode.shownName_eq_untrailed]
  exact Bytecode.shownName_append_underscores _ _

theorem key_hashed (name : String) :
    (hashed name).key = String.ofList ('$' :: (hashDigits name ++ ['$'])) := by
  have hlast : ('$' :: (hashDigits name ++ ['$'])).getLast? = some '$' := by
    rw [← List.cons_append, List.getLast?_concat]
  exact Bytecode.shownName_of_getLast? (by simp [hashed, hlast])

theorem newline_notMem_label {name : String} (h : '\n' ∉ name.toList.take 36) :
    '\n' ∉ (label name).body := by
  simp [label, h]

theorem hexDigit_ne_newline : ∀ n < 16, Text.hexDigit n ≠ '\n' := by decide

theorem newline_notMem_hashed (name : String) : '\n' ∉ (hashed name).body := by
  have hdigits : '\n' ∉ hashDigits name := by
    intro h
    obtain ⟨b, -, hb⟩ := List.mem_flatMap.1 (List.mem_of_mem_take h)
    have hlt : b.toNat < 256 := b.toNat_lt
    have hhigh := hexDigit_ne_newline (b.toNat / 16) (by omega)
    have hlow := hexDigit_ne_newline (b.toNat % 16) (by omega)
    simp [hhigh.symm, hlow.symm] at hb
  simp [hashed, hdigits]

end Placeholder

namespace Bytecode

def foundUnder (key : String) (found : List (String × LinkReference)) : List LinkReference :=
  (found.filter (·.1 = key)).map (·.2)

theorem mem_foundUnder {key : String} {found : List (String × LinkReference)} {r : LinkReference} :
    r ∈ foundUnder key found ↔ (key, r) ∈ found := by
  simp [foundUnder, eq_comm]

theorem foundUnder_concat (key : String) (found : List (String × LinkReference))
    (p : String × LinkReference) :
    foundUnder key (found ++ [p]) = foundUnder key found ++ if p.1 = key then [p.2] else [] := by
  by_cases h : p.1 = key <;> simp [foundUnder, h]

theorem gather_concat (found : List (String × LinkReference)) (p : String × LinkReference) :
    gather (found ++ [p]) = (gather found).alter p.1 fun old => old.getD [] ++ [p.2] := by
  simp [gather]

theorem get?_gather (found : List (String × LinkReference)) (key : String) :
    (gather found).get? key =
      if foundUnder key found = [] then none else some (foundUnder key found) := by
  induction found using List.reverseRecOn with
  | nil => rfl
  | append_singleton found p ih =>
    rw [gather_concat, Dict.get?_alter, foundUnder_concat]
    by_cases h : p.1 = key
    · subst h
      rw [ih]
      by_cases hnone : foundUnder p.1 found = [] <;> simp [hnone]
    · rw [if_neg (Ne.symm h), if_neg h, List.append_nil, ih]

theorem mem_of_get?_gather {found : List (String × LinkReference)} {key : String}
    {places : List LinkReference} (h : (gather found).get? key = some places)
    {r : LinkReference} (hr : r ∈ places) : (key, r) ∈ found := by
  rw [get?_gather] at h
  split at h
  · contradiction
  · rw [← mem_foundUnder]
    exact Option.some.inj h ▸ hr

end SolidityHost.Bytecode
