import Mathlib.Data.List.Nodup
import SolidityHost.Proofs.Legacy.Survival
import SolidityHost.Proofs.Text.Digits

/-!
# Paths of an estimate tree

A translated estimate has a path for each path of the original and no other: a field keeps its name,
and an element of a list gets the numeral of its index. Numerals of different indices differ, so no
two elements share a key. What stands at the end of a path is translated as a tree of its own, so a
leaf is still a leaf and becomes its text.
-/

set_option autoImplicit false

namespace SolidityHost

namespace Json

inductive Branch where
  | field (key : String)
  | item (index : Nat)

def branch? (j : Json) : Branch → Option Json
  | .field key => j.field? key
  | .item index => j.item? index

def at? (j : Json) : List Branch → Option Json
  | [] => some j
  | b :: path => (j.branch? b).bind fun k => k.at? path

def entryCount : Json → Nat
  | .array items => items.length
  | .object fields => fields.length
  | _ => 0

inductive Plain : Json → Prop where
  | string (s : String) : Plain (.string s)
  | object {fields : List (String × Json)} (h : ∀ e ∈ fields, Plain e.2) : Plain (.object fields)

end Json

namespace Legacy

open Json

def numeral (i : Nat) : String := String.ofList (Nat.toDigits 10 i)

theorem numeral_injective : Function.Injective numeral := by
  intro i k h
  have hdigits : Nat.toDigits 10 i = Nat.toDigits 10 k := String.ofList_injective h
  have hvalue := congrArg (fun ds => Nat.ofDigitChars 10 ds 0) hdigits
  simpa using hvalue

theorem gasItems_cons (i : Nat) (j : Json) (items : List Json) :
    gasItems i (j :: items) = (numeral i, gas j) :: gasItems (i + 1) items := by
  rw [gasItems, numeral]

theorem keys_gasItems (items : List Json) (i : Nat) :
    (gasItems i items).map (·.1) = (List.range' i items.length).map numeral := by
  induction items generalizing i with
  | nil => rfl
  | cons j items ih =>
    rw [gasItems_cons, List.map_cons, ih, List.length_cons, List.range'_succ, List.map_cons]

theorem nodup_keys_gasItems (items : List Json) (i : Nat) :
    ((gasItems i items).map (·.1)).Nodup := by
  rw [keys_gasItems]
  exact List.Nodup.map numeral_injective (List.nodup_range' 1)

theorem length_gasItems (items : List Json) (i : Nat) :
    (gasItems i items).length = items.length := by
  simpa using congrArg List.length (keys_gasItems items i)

theorem get?_gasItems (items : List Json) (i n : Nat) :
    Entries.get? (gasItems i items) (numeral (i + n)) = items[n]?.map gas := by
  induction items generalizing i n with
  | nil => rfl
  | cons j items ih =>
    rw [gasItems_cons, Entries.get?_cons]
    cases n with
    | zero => rw [Nat.add_zero, if_pos rfl, List.getElem?_cons_zero, Option.map_some]
    | succ n =>
      have hne : numeral (i + (n + 1)) ≠ numeral i := fun h => by
        have := numeral_injective h
        omega
      have hnext : i + (n + 1) = i + 1 + n := by omega
      rw [if_neg hne, List.getElem?_cons_succ, hnext, ih]

/-- The branch of the translation that takes the place of a branch. -/
def place : Branch → Branch
  | .field key => .field key
  | .item index => .field (numeral index)

variable {j k v : Json} {b c : Branch}

theorem branch?_gas (h : j.branch? b = some k) : (gas j).branch? (place b) = some (gas k) := by
  cases b with
  | field key =>
    obtain ⟨fields, hfields, hk⟩ := Option.bind_eq_some_iff.1 h
    cases j <;> cases hfields
    rw [gas, gasFields_eq, place, branch?, field?, object?, Option.bind_some, Entries.get?_map, hk,
      Option.map_some]
  | item index =>
    obtain ⟨items, hitems, hk⟩ := Option.bind_eq_some_iff.1 h
    cases j <;> cases hitems
    have hget := get?_gasItems items 0 index
    rw [Nat.zero_add, hk] at hget
    rw [gas, place, branch?, field?, object?, Option.bind_some,
      Entries.get?_ofList (nodup_keys_gasItems items 0), hget, Option.map_some]

/-- Every branch of the translation takes the place of one of the original. -/
theorem exists_branch_of_gas (h : (gas j).branch? c = some v) :
    ∃ b k, place b = c ∧ j.branch? b = some k ∧ v = gas k := by
  have hfields : ∃ key fields, c = .field key ∧ (gas j).object? = some fields ∧
      fields.get? key = some v := by
    cases c with
    | field key =>
      obtain ⟨fields, hfields, hv⟩ := Option.bind_eq_some_iff.1 h
      exact ⟨key, fields, rfl, hfields, hv⟩
    | item index =>
      obtain ⟨items, hitems, -⟩ := Option.bind_eq_some_iff.1 h
      cases j <;> cases hitems
  obtain ⟨key, fields, rfl, hfields, hv⟩ := hfields
  cases j with
  | object original =>
    obtain rfl : gasFields original = fields := Option.some.inj hfields
    rw [gasFields_eq, Entries.get?_map] at hv
    obtain ⟨k, hk, rfl⟩ := Option.map_eq_some_iff.1 hv
    exact ⟨.field key, k, rfl, hk, rfl⟩
  | array items =>
    obtain rfl : Entries.ofList (gasItems 0 items) = fields := Option.some.inj hfields
    rw [Entries.get?_ofList (nodup_keys_gasItems items 0)] at hv
    have hkey : key ∈ (gasItems 0 items).map (·.1) := List.mem_map_of_mem (Entries.mem_of_get? hv)
    rw [keys_gasItems] at hkey
    obtain ⟨index, -, rfl⟩ := List.mem_map.1 hkey
    have hget := get?_gasItems items 0 index
    rw [Nat.zero_add, hv] at hget
    obtain ⟨k, hk, hgas⟩ := Option.map_eq_some_iff.1 hget.symm
    exact ⟨.item index, k, rfl, hk, hgas.symm⟩
  | null | bool | number | string => cases hfields

theorem branch_eq_of_place_eq {l : Json} (hb : j.branch? b = some k) (hc : j.branch? c = some l)
    (h : place b = place c) : b = c := by
  cases b with
  | field key =>
    obtain ⟨fields, hfields, -⟩ := Option.bind_eq_some_iff.1 hb
    cases j <;> cases hfields
    cases c with
    | field other => exact h
    | item => cases hc
  | item index =>
    obtain ⟨items, hitems, -⟩ := Option.bind_eq_some_iff.1 hb
    cases j <;> cases hitems
    cases c with
    | field => cases hc
    | item other =>
      have hkey : numeral index = numeral other := by simpa [place] using h
      rw [numeral_injective hkey]

theorem at?_gas {path : List Branch} (h : j.at? path = some k) :
    (gas j).at? (path.map place) = some (gas k) := by
  induction path generalizing j with
  | nil => rw [← Option.some.inj h]; rfl
  | cons b path ih =>
    obtain ⟨next, hnext, hrest⟩ := Option.bind_eq_some_iff.1 h
    rw [List.map_cons, at?, branch?_gas hnext, Option.bind_some, ih hrest]

theorem exists_path_of_gas {path : List Branch} (h : (gas j).at? path = some v) :
    ∃ original k, original.map place = path ∧ j.at? original = some k := by
  induction path generalizing j with
  | nil => exact ⟨[], j, rfl, rfl⟩
  | cons c path ih =>
    obtain ⟨next, hnext, hrest⟩ := Option.bind_eq_some_iff.1 h
    obtain ⟨b, k, rfl, hb, rfl⟩ := exists_branch_of_gas hnext
    obtain ⟨original, l, rfl, hl⟩ := ih hrest
    exact ⟨b :: original, l, rfl, by rw [at?, hb, Option.bind_some, hl]⟩

theorem path_eq_of_places_eq {path other : List Branch} {l : Json} (hp : j.at? path = some k)
    (ho : j.at? other = some l) (h : path.map place = other.map place) : path = other := by
  induction path generalizing j other with
  | nil => exact (List.map_eq_nil_iff.1 h.symm).symm
  | cons b path ih =>
    cases other with
    | nil => cases h
    | cons c other =>
      obtain ⟨hplace, hrest⟩ := List.cons.inj h
      obtain ⟨next, hnext, hp⟩ := Option.bind_eq_some_iff.1 hp
      obtain ⟨next', hnext', ho⟩ := Option.bind_eq_some_iff.1 ho
      obtain rfl := branch_eq_of_place_eq hnext hnext' hplace
      obtain rfl := Option.some.inj (hnext.symm.trans hnext')
      rw [ih hp ho hrest]

def leafText? : Json → Option String
  | .null => some "infinite"
  | .bool b => some (toText (.bool b))
  | .number n => some (toText (.number n))
  | .string s => some s
  | .array _ => none
  | .object _ => none

theorem string?_gas (j : Json) : (gas j).string? = leafText? j := by
  cases j <;> rfl

theorem entryCount_gas (j : Json) : (gas j).entryCount = j.entryCount := by
  cases j with
  | array items =>
    have hsize := Dict.size_ofList (nodup_keys_gasItems items 0)
    rw [Dict.size, Dict.entries_ofList, length_gasItems] at hsize
    rw [gas]
    exact hsize
  | object fields => rw [gas, entryCount, gasFields_eq, List.length_map, entryCount]
  | null | bool | number | string => rfl

mutual

theorem plain_gas : ∀ j : Json, (gas j).Plain
  | .null => .string _
  | .bool _ => .string _
  | .number _ => .string _
  | .string _ => .string _
  | .array items => .object fun e he => plain_gasItems items 0 e (Entries.mem_ofList he)
  | .object fields => .object (plain_gasFields fields)

theorem plain_gasItems : ∀ (items : List Json) (i : Nat), ∀ e ∈ gasItems i items, e.2.Plain
  | [], _ => nofun
  | j :: items, i => List.forall_mem_cons.2 ⟨plain_gas j, plain_gasItems items (i + 1)⟩

theorem plain_gasFields : ∀ fields : List (String × Json), ∀ e ∈ gasFields fields, e.2.Plain
  | [] => nofun
  | (_, j) :: fields => List.forall_mem_cons.2 ⟨plain_gas j, plain_gasFields fields⟩

end

theorem gas_of_plain (h : j.Plain) : gas j = j := by
  induction h with
  | string s => rfl
  | @object fields _ ih =>
    rw [gas, gasFields_eq]
    congr 1
    calc fields.map (fun e => (e.1, gas e.2))
        = fields.map id := List.map_congr_left fun e he => congrArg (Prod.mk e.1) (ih e he)
      _ = fields := List.map_id fields

/-- A translated tree is made of strings and objects, and translating it again leaves it alone. Its
paths are those of the original, each with numerals in place of indices and with as many entries at
its end; a leaf says there what it said before. -/
theorem gas_keeps_paths (estimates : Json) :
    (gas estimates).Plain ∧ gas (gas estimates) = gas estimates ∧
      (∀ path j, estimates.at? path = some j → ∃ v, (gas estimates).at? (path.map place) = some v ∧
        v.string? = leafText? j ∧ v.entryCount = j.entryCount) ∧
      ∀ path v, (gas estimates).at? path = some v →
        ∃! original, (estimates.at? original).isSome ∧ original.map place = path := by
  refine ⟨plain_gas estimates, gas_of_plain (plain_gas estimates), ?_, ?_⟩
  · intro path j h
    exact ⟨gas j, at?_gas h, string?_gas j, entryCount_gas j⟩
  · intro path v h
    obtain ⟨original, k, rfl, hk⟩ := exists_path_of_gas h
    refine ⟨original, ⟨Option.isSome_of_eq_some hk, rfl⟩, ?_⟩
    rintro other ⟨hsome, hplaces⟩
    obtain ⟨l, hl⟩ := Option.isSome_iff_exists.1 hsome
    exact path_eq_of_places_eq hl hk hplaces

end Legacy

end SolidityHost
