import Mathlib.Data.List.Forall2
import SolidityHost.Abi
import SolidityHost.Proofs.Dict
import SolidityHost.Proofs.Version.Precedence

/-!
# Upgraded interfaces

An upgrade writes two fields of an item. Whether it writes them depends on the kind of the item and
on the flag for constants, which it does not write; and the mutability that it writes is the one
that the flags say then. So a second upgrade writes what is there already.
-/

set_option autoImplicit false

namespace SolidityHost.Abi

variable {v : Version} {item : Entries Json} {abi : List Json} {k q : String}

theorem olderThan_0_4_16 (h : v.olderThan ⟨0, 4, 5⟩ = true ∨ v.olderThan ⟨0, 4, 0⟩ = true ∨
    v.olderThan ⟨0, 1, 2⟩ = true) : v.olderThan ⟨0, 4, 16⟩ = true := by
  rcases h with h | h | h <;> exact Version.olderThan_of_lt h (by decide)

theorem flag_insert (item : Entries Json) (hq : q ≠ k) (j : Json) :
    flag (item.insert k j) q = flag item q := by
  rw [flag, flag, Entries.get?_insert, if_neg hq]

theorem kind_insert (item : Entries Json) (hk : "type" ≠ k) (j : Json) :
    kind (item.insert k j) = kind item := by
  rw [kind, kind, Entries.get?_insert, if_neg hk]

theorem flag_eq_true_iff : flag item k = true ↔ item.get? k = some (.bool true) := by
  rw [flag]
  cases item.get? k with
  | none => simp
  | some j => cases j <;> simp [Json.bool?]

def Paid (v : Version) (item : Entries Json) : Prop :=
  kind item = "constructor" ∧ v.olderThan ⟨0, 4, 5⟩ = true ∨
    kind item ≠ "event" ∧ flag item "constant" = false ∧ v.olderThan ⟨0, 4, 0⟩ = true

instance (v : Version) (item : Entries Json) : Decidable (Paid v item) :=
  inferInstanceAs (Decidable (_ ∨ _))

def Unstated (v : Version) (item : Entries Json) : Prop :=
  kind item ≠ "event" ∧ v.olderThan ⟨0, 4, 16⟩ = true

instance (v : Version) (item : Entries Json) : Decidable (Unstated v item) :=
  inferInstanceAs (Decidable (_ ∧ _))

theorem Paid.unstated (h : Paid v item) : Unstated v item := by
  rcases h with ⟨hkind, hold⟩ | ⟨hkind, -, hold⟩
  · exact ⟨hkind ▸ by decide, olderThan_0_4_16 (.inl hold)⟩
  · exact ⟨hkind, olderThan_0_4_16 (.inr (.inl hold))⟩

@[simp] theorem kind_setPayable (item : Entries Json) : kind (setPayable item) = kind item :=
  kind_insert item (by decide) _

@[simp] theorem constant_setPayable (item : Entries Json) :
    flag (setPayable item) "constant" = flag item "constant" := flag_insert item (by decide) _

theorem withFlags_eq (v : Version) (item : Entries Json) :
    withFlags v item = if Paid v item then setPayable item else item := by
  unfold withFlags
  by_cases hfirst : kind item = "constructor" ∧ v.olderThan ⟨0, 4, 5⟩
  · have hpaid : Paid v item := .inl hfirst
    have hagain : setPayable (setPayable item) = setPayable item :=
      Entries.insert_insert_self item _ _
    simp only [if_pos hfirst, if_pos hpaid, hagain, ite_self]
  · have hpaid : Paid v item ↔ kind item ≠ "event" ∧ flag item "constant" = false ∧
        v.olderThan ⟨0, 4, 0⟩ = true := or_iff_right hfirst
    simp only [if_neg hfirst, hpaid]

theorem withMutability_eq (v : Version) (item : Entries Json) : withMutability v item =
    if Unstated v item then item.insert "stateMutability" (.string (mutability item)) else item :=
  rfl

@[simp] theorem kind_withFlags (v : Version) (item : Entries Json) :
    kind (withFlags v item) = kind item := by
  rw [withFlags_eq]
  split <;> simp

@[simp] theorem constant_withFlags (v : Version) (item : Entries Json) :
    flag (withFlags v item) "constant" = flag item "constant" := by
  rw [withFlags_eq]
  split <;> simp

@[simp] theorem kind_withMutability (v : Version) (item : Entries Json) :
    kind (withMutability v item) = kind item := by
  rw [withMutability_eq]
  split
  · exact kind_insert item (by decide) _
  · rfl

theorem flag_withMutability (v : Version) (item : Entries Json) (hq : q ≠ "stateMutability") :
    flag (withMutability v item) q = flag item q := by
  rw [withMutability_eq]
  split
  · exact flag_insert item hq _
  · rfl

theorem unstated_withFlags : Unstated v (withFlags v item) ↔ Unstated v item := by
  rw [Unstated, Unstated, kind_withFlags]

def upgradeFields (v : Version) (item : Entries Json) : Entries Json :=
  withMutability v (withFlags v item)

@[simp] theorem upgradeItem_object (v : Version) (item : Entries Json) :
    upgradeItem v (.object item) = .object (upgradeFields v item) := rfl

@[simp] theorem kind_upgradeFields (v : Version) (item : Entries Json) :
    kind (upgradeFields v item) = kind item := by
  simp [upgradeFields]

theorem constant_upgradeFields (v : Version) (item : Entries Json) :
    flag (upgradeFields v item) "constant" = flag item "constant" := by
  rw [upgradeFields, flag_withMutability v _ (by decide), constant_withFlags]

theorem upgradeFields_of_stated (h : ¬ Unstated v item) : upgradeFields v item = item := by
  have hpaid : ¬ Paid v item := fun hpaid => h hpaid.unstated
  have hflags : withFlags v item = item := by rw [withFlags_eq, if_neg hpaid]
  rw [upgradeFields, hflags, withMutability_eq, if_neg h]

theorem upgradeFields_of_unstated (h : Unstated v item) : upgradeFields v item =
    (withFlags v item).insert "stateMutability" (.string (mutability (withFlags v item))) := by
  rw [upgradeFields, withMutability_eq, if_pos (unstated_withFlags.2 h)]

theorem mutability_upgradeFields (v : Version) (item : Entries Json) :
    mutability (upgradeFields v item) = mutability (withFlags v item) := by
  simp only [mutability, upgradeFields, flag_withMutability v _ (by decide : "payable" ≠ _),
    flag_withMutability v _ (by decide : "constant" ≠ _)]

theorem withFlags_upgradeFields (v : Version) (item : Entries Json) :
    withFlags v (upgradeFields v item) = upgradeFields v item := by
  have hsame : Paid v (upgradeFields v item) ↔ Paid v item := by
    rw [Paid, Paid, kind_upgradeFields, constant_upgradeFields]
  rw [withFlags_eq]
  by_cases hpaid : Paid v item
  · rw [if_pos (hsame.2 hpaid), upgradeFields_of_unstated hpaid.unstated, withFlags_eq,
      if_pos hpaid]
    -- the mutability was written behind the flag, so the flag is found in its place
    exact Entries.insert_insert_of_lt (Entries.insert_insert_self item _ _) (by decide) _
  · rw [if_neg (mt hsame.1 hpaid)]

theorem upgradeFields_upgradeFields (v : Version) (item : Entries Json) :
    upgradeFields v (upgradeFields v item) = upgradeFields v item := by
  by_cases h : Unstated v item
  · -- the rule applies again, and the flags have not moved since the mutability was read off them
    have hagain : Unstated v (upgradeFields v item) := by
      rw [Unstated, kind_upgradeFields]
      exact h
    rw [upgradeFields_of_unstated hagain, withFlags_upgradeFields, mutability_upgradeFields,
      upgradeFields_of_unstated h, Entries.insert_insert_self]
  · rw [upgradeFields_of_stated h, upgradeFields_of_stated h]

theorem upgradeItem_upgradeItem (v : Version) (j : Json) :
    upgradeItem v (upgradeItem v j) = upgradeItem v j := by
  cases j with
  | object item => simp [upgradeFields_upgradeFields]
  | _ => rfl

def hasKind (k : String) : Json → Bool
  | .object item => kind item = k
  | _ => false

theorem lists_eq_any (abi : List Json) (k : String) : lists abi k = abi.any (hasKind k) := by
  refine congrArg (fun p => abi.any p) (funext fun j => ?_)
  cases j <;> rfl

theorem lists_append (abi more : List Json) (k : String) :
    lists (abi ++ more) k = (lists abi k || lists more k) := List.any_append

@[simp] theorem hasKind_upgradeItem (v : Version) (k : String) (j : Json) :
    hasKind k (upgradeItem v j) = hasKind k j := by
  cases j with
  | object item => simp [hasKind]
  | _ => rfl

theorem lists_map_upgradeItem (v : Version) (abi : List Json) (k : String) :
    lists (abi.map (upgradeItem v)) k = lists abi k := by
  rw [lists_eq_any, lists_eq_any, List.any_map]
  exact congrArg (fun p => abi.any p) (funext (hasKind_upgradeItem v k))

def constructorFields : Entries Json :=
  [("inputs", .array []), ("payable", .bool true), ("stateMutability", .string "payable"),
    ("type", .string "constructor")]

def fallbackFields : Entries Json :=
  [("payable", .bool true), ("stateMutability", .string "payable"), ("type", .string "fallback")]

theorem defaultConstructor_eq : defaultConstructor = .object constructorFields := rfl

theorem defaultFallback_eq : defaultFallback = .object fallbackFields := rfl

/-- An item that says it is payable in the words of an upgrade is left alone. -/
theorem upgradeFields_of_payable (hpayable : setPayable item = item)
    (hstated : item.insert "stateMutability" (.string "payable") = item) :
    upgradeFields v item = item := by
  have hflags : withFlags v item = item := by
    rw [withFlags_eq, hpayable, ite_self]
  have hflag : flag item "payable" = true := by
    rw [← hpayable, setPayable, flag, Entries.get?_insert, if_pos rfl]
    rfl
  rw [upgradeFields, hflags, withMutability_eq, mutability, if_pos hflag, hstated, ite_self]

def added (v : Version) (abi : List Json) (k : String) (since : Release) (j : Json) : List Json :=
  if !lists abi k && v.olderThan since then [j] else []

theorem implied_eq (v : Version) (abi : List Json) : implied v abi =
    added v abi "constructor" ⟨0, 1, 2⟩ defaultConstructor ++
      added v abi "fallback" ⟨0, 4, 0⟩ defaultFallback := rfl

section

variable {since : Release} {j : Json}

theorem eq_of_mem_added {j' : Json} (h : j' ∈ added v abi k since j) : j' = j := by
  unfold added at h
  split at h
  · exact List.mem_singleton.1 h
  · contradiction

theorem lists_added (hj : hasKind k j = true) :
    lists (added v abi k since j) k = (!lists abi k && v.olderThan since) := by
  unfold added
  cases !lists abi k && v.olderThan since with
  | true => simp [lists_eq_any, hj]
  | false => rfl

theorem not_hasKind_of_mem_added (hj : hasKind q j = false) :
    ∀ j' ∈ added v abi k since j, ¬ hasKind q j' = true := by
  intro j' hj'
  rw [eq_of_mem_added hj', hj]
  exact Bool.false_ne_true

theorem lists_added_of_not (hj : hasKind q j = false) :
    lists (added v abi k since j) q = false := by
  rw [lists_eq_any, List.any_eq_false]
  exact not_hasKind_of_mem_added hj

theorem countP_added_of_not (hj : hasKind q j = false) :
    (added v abi k since j).countP (hasKind q) = 0 :=
  List.countP_eq_zero.2 (not_hasKind_of_mem_added hj)

theorem added_of_lists {abi' : List Json}
    (h : lists abi' k = (lists abi k || v.olderThan since)) : added v abi' k since j = [] := by
  rw [added, h]
  cases lists abi k <;> cases v.olderThan since <;> rfl

theorem countP_added_le (v : Version) (abi : List Json) (k : String) (since : Release) (j : Json) :
    abi.countP (hasKind k) + (added v abi k since j).countP (hasKind k) ≤
      max 1 (abi.countP (hasKind k)) := by
  unfold added
  split
  case isTrue h =>
    have hnone : lists abi k = false := by simp_all
    have hzero : abi.countP (hasKind k) = 0 := by
      rw [List.countP_eq_zero]
      rwa [lists_eq_any, List.any_eq_false] at hnone
    have hone : [j].countP (hasKind k) ≤ 1 := List.countP_le_length
    omega
  case isFalse => simp

end

def impliedKinds : List (String × Release) := [("constructor", ⟨0, 1, 2⟩), ("fallback", ⟨0, 4, 0⟩)]

theorem lists_upgrade (v : Version) (abi : List Json) {since : Release}
    (h : (k, since) ∈ impliedKinds) :
    lists (upgrade v abi) k = (lists abi k || v.olderThan since) := by
  have himplied : lists (implied v abi) k = (!lists abi k && v.olderThan since) := by
    rw [implied_eq, lists_append]
    rcases List.mem_pair.1 h with h | h <;> obtain ⟨rfl, rfl⟩ := Prod.mk.inj h
    · rw [lists_added (by decide), lists_added_of_not (by decide), Bool.or_false]
    · rw [lists_added_of_not (by decide), lists_added (by decide), Bool.false_or]
  rw [upgrade, lists_append, lists_map_upgradeItem, himplied]
  cases lists abi k <;> simp

/-- After an upgrade nothing is implied any more. -/
theorem implied_upgrade (v : Version) (abi : List Json) : implied v (upgrade v abi) = [] := by
  rw [implied_eq, added_of_lists (lists_upgrade v abi (by simp [impliedKinds])),
    added_of_lists (lists_upgrade v abi (by simp [impliedKinds])), List.append_nil]

theorem upgradeItem_of_mem_implied {j : Json} (h : j ∈ implied v abi) : upgradeItem v j = j := by
  rw [implied_eq] at h
  rcases List.mem_append.1 h with h | h
  · -- the two items that are added were never upgraded, but they read as if they had been
    rw [eq_of_mem_added h, defaultConstructor_eq, upgradeItem_object,
      upgradeFields_of_payable rfl rfl]
  · rw [eq_of_mem_added h, defaultFallback_eq, upgradeItem_object, upgradeFields_of_payable rfl rfl]

theorem upgrade_upgrade (v : Version) (abi : List Json) :
    upgrade v (upgrade v abi) = upgrade v abi := by
  have hitems : (abi.map (upgradeItem v)).map (upgradeItem v) = abi.map (upgradeItem v) := by
    rw [List.map_map]
    exact List.map_congr_left fun j _ => upgradeItem_upgradeItem v j
  have himplied : (implied v abi).map (upgradeItem v) = (implied v abi).map id :=
    List.map_congr_left fun j => upgradeItem_of_mem_implied
  calc upgrade v (upgrade v abi)
      = (upgrade v abi).map (upgradeItem v) := by
        rw [upgrade, implied_upgrade, List.append_nil]
    _ = abi.map (upgradeItem v) ++ implied v abi := by
        rw [upgrade, List.map_append, hitems, himplied, List.map_id]

theorem countP_map_upgradeItem (v : Version) (abi : List Json) (k : String) :
    (abi.map (upgradeItem v)).countP (hasKind k) = abi.countP (hasKind k) := by
  rw [List.countP_map]
  exact List.countP_congr fun j _ => by simp

theorem upgradeReported_of_parse? {w : ReportedVersion} (h : w.parse? = some v)
    (abi : List Json) : upgradeReported w.raw abi = .ok (upgrade v abi) := by
  have hparse : ReportedVersion.parse ⟨w.raw⟩ = .ok v := ReportedVersion.parse_of_parse? h
  rw [upgradeReported, hparse]
  rfl

/-- An upgrade for a version that can be read gives an interface that the same upgrade leaves
alone, with at most one constructor and one fallback more, and only where there was none. -/
theorem upgradeReported_again {w : ReportedVersion} (h : w.parse? = some v) (abi : List Json) :
    ∃ upgraded, upgradeReported w.raw abi = .ok upgraded ∧
      upgradeReported w.raw upgraded = .ok upgraded ∧
      upgraded.countP (hasKind "constructor") ≤ max 1 (abi.countP (hasKind "constructor")) ∧
      upgraded.countP (hasKind "fallback") ≤ max 1 (abi.countP (hasKind "fallback")) := by
  have hconstructor : (added v abi "constructor" ⟨0, 1, 2⟩ defaultConstructor).countP
      (hasKind "fallback") = 0 := countP_added_of_not (by decide)
  have hfallback : (added v abi "fallback" ⟨0, 4, 0⟩ defaultFallback).countP
      (hasKind "constructor") = 0 := countP_added_of_not (by decide)
  refine ⟨upgrade v abi, upgradeReported_of_parse? h abi, ?again, ?constructors, ?fallbacks⟩
  case again => rw [upgradeReported_of_parse? h, upgrade_upgrade]
  case constructors =>
    rw [upgrade, implied_eq, List.countP_append, List.countP_append, countP_map_upgradeItem,
      hfallback, Nat.add_zero]
    exact countP_added_le ..
  case fallbacks =>
    rw [upgrade, implied_eq, List.countP_append, List.countP_append, countP_map_upgradeItem,
      hconstructor, Nat.zero_add]
    exact countP_added_le ..

def irregular : List Json :=
  [.object [("constant", .string "yes"), ("payable", .null)], .object [("type", .string "event")],
    .object [("constant", .bool true), ("type", .null)], .string "fallback", .null]

theorem upgradeReported_again_irregular :
    ReportedVersion.parse? ⟨"0.1.1"⟩ = some ⟨⟨0, 1, 1⟩, []⟩ ∧
      ∃ upgraded, upgradeReported "0.1.1" irregular = .ok upgraded ∧
        upgradeReported "0.1.1" upgraded = .ok upgraded ∧
        upgraded.countP (hasKind "constructor") ≤ 1 ∧
        upgraded.countP (hasKind "fallback") ≤ 1 := by
  have hparse : ReportedVersion.parse? ⟨"0.1.1"⟩ = some ⟨⟨0, 1, 1⟩, []⟩ := by decide
  exact ⟨hparse, upgradeReported_again hparse irregular⟩

def isOther (k : String) : Bool := k ≠ "payable" && k ≠ "stateMutability"

def others (item : Entries Json) : Entries Json := item.filter fun e => isOther e.1

/-- An event, and what is no object, is kept; of another item at most two fields are written. -/
inductive Upgrades : Json → Json → Prop
  | kept {j : Json} (h : ∀ item, j = .object item → kind item = "event") : Upgrades j j
  | written {item item' : Entries Json} (hk : kind item ≠ "event")
    (h : others item' = others item) : Upgrades (.object item) (.object item')

theorem others_upgradeFields (v : Version) (item : Entries Json) :
    others (upgradeFields v item) = others item := by
  have hflags : others (withFlags v item) = others item := by
    rw [withFlags_eq]
    split
    · exact Entries.filter_insert (p := isOther) (by decide) item _
    · rfl
  rw [← hflags, upgradeFields, withMutability_eq]
  split
  · exact Entries.filter_insert (p := isOther) (by decide) _ _
  · rfl

theorem upgrades_upgradeItem (v : Version) (j : Json) : Upgrades j (upgradeItem v j) := by
  cases j with
  | object item =>
    by_cases hk : kind item = "event"
    · rw [upgradeItem_object, upgradeFields_of_stated fun hu => hu.1 hk]
      exact .kept fun item' heq => Json.object.inj heq ▸ hk
    · exact .written hk (others_upgradeFields v item)
  | _ => exact .kept (by simp)

structure Consistent (item : Entries Json) : Prop where
  payable : item.get? "stateMutability" = some (.string "payable") ↔
    item.get? "payable" = some (.bool true)
  view : item.get? "stateMutability" = some (.string "view") ↔
    item.get? "payable" ≠ some (.bool true) ∧ item.get? "constant" = some (.bool true)
  nonpayable : item.get? "stateMutability" = some (.string "nonpayable") ↔
    item.get? "payable" ≠ some (.bool true) ∧ item.get? "constant" ≠ some (.bool true)

theorem consistent_of_get? (h : item.get? "stateMutability" = some (.string (mutability item))) :
    Consistent item := by
  constructor <;> rw [h, mutability] <;> simp only [ne_eq, ← flag_eq_true_iff] <;>
    cases flag item "payable" <;> cases flag item "constant" <;> simp

theorem consistent_upgradeFields (h : Unstated v item) : Consistent (upgradeFields v item) := by
  apply consistent_of_get?
  rw [mutability_upgradeFields, upgradeFields_of_unstated h, Entries.get?_insert, if_pos rfl]

theorem upgradeFields_of_mem_upgrade (h : Json.object item ∈ upgrade v abi) :
    upgradeFields v item = item := by
  have hsame : upgradeItem v (.object item) = .object item := by
    rcases List.mem_append.1 h with h | h
    · obtain ⟨j, -, hj⟩ := List.mem_map.1 h
      rw [← hj, upgradeItem_upgradeItem]
    · exact upgradeItem_of_mem_implied h
  exact Json.object.inj hsame

theorem upgrade_of_not_olderThan (h : v.olderThan ⟨0, 4, 16⟩ = false) (abi : List Json) :
    upgrade v abi = abi := by
  have hitem : ∀ j ∈ abi, upgradeItem v j = id j := by
    intro j _
    cases j with
    | object item =>
      have hstated : ¬ Unstated v item := fun hu => absurd (hu.2.symm.trans h) nofun
      rw [upgradeItem_object, upgradeFields_of_stated hstated, id]
    | _ => rfl
  have hconstructor : v.olderThan ⟨0, 1, 2⟩ = false :=
    Bool.eq_false_iff.2 fun hold => absurd (olderThan_0_4_16 (.inr (.inr hold))) (by simp [h])
  have hfallback : v.olderThan ⟨0, 4, 0⟩ = false :=
    Bool.eq_false_iff.2 fun hold => absurd (olderThan_0_4_16 (.inr (.inl hold))) (by simp [h])
  rw [upgrade, implied, hconstructor, hfallback, List.map_congr_left hitem, List.map_id]
  simp

/-- What an upgrade keeps, what it adds, and what it states. -/
theorem upgradeReported_changes {w : ReportedVersion} (h : w.parse? = some v) (abi : List Json) :
    ∃ items more, upgradeReported w.raw abi = .ok (items ++ more) ∧
      List.Forall₂ Upgrades abi items ∧
      more =
        (if w.olderThan ⟨0, 1, 2⟩ = true ∧ ∀ j ∈ abi, hasKind "constructor" j = false then
          [defaultConstructor] else []) ++
        (if w.olderThan ⟨0, 4, 0⟩ = true ∧ ∀ j ∈ abi, hasKind "fallback" j = false then
          [defaultFallback] else []) ∧
      hasKind "constructor" defaultConstructor = true ∧ hasKind "fallback" defaultFallback = true ∧
      (w.olderThan ⟨0, 4, 16⟩ = false → items ++ more = abi) ∧
      (w.olderThan ⟨0, 4, 16⟩ = true → ∀ item, Json.object item ∈ items ++ more →
        kind item ≠ "event" → Consistent item) := by
  simp only [ReportedVersion.olderThan_of_parse? h]
  refine ⟨abi.map (upgradeItem v), implied v abi, upgradeReported_of_parse? h abi, ?items, ?more,
    by decide, by decide, fun hmodern => upgrade_of_not_olderThan hmodern abi, ?stated⟩
  case items =>
    rw [List.forall₂_map_right_iff, List.forall₂_same]
    exact fun j _ => upgrades_upgradeItem v j
  case more =>
    rw [implied, lists_eq_any, lists_eq_any]
    simp [and_comm]
  case stated =>
    intro hold item hmem hk
    rw [← upgradeFields_of_mem_upgrade hmem]
    exact consistent_upgradeFields ⟨hk, hold⟩

theorem upgradeReported_changes_irregular :
    ReportedVersion.parse? ⟨"0.1.1"⟩ = some ⟨⟨0, 1, 1⟩, []⟩ ∧
      ∃ items, upgradeReported "0.1.1" irregular =
          .ok (items ++ [defaultConstructor, defaultFallback]) ∧
        List.Forall₂ Upgrades irregular items ∧
        ∀ item, Json.object item ∈ items → kind item ≠ "event" → Consistent item := by
  have hparse : ReportedVersion.parse? ⟨"0.1.1"⟩ = some ⟨⟨0, 1, 1⟩, []⟩ := by decide
  obtain ⟨items, more, hok, hitems, hmore, -, -, -, hstated⟩ :=
    upgradeReported_changes hparse irregular
  have hboth : more = [defaultConstructor, defaultFallback] := by
    rw [hmore, if_pos (by decide), if_pos (by decide)]
    rfl
  rw [hboth] at hok
  exact ⟨hparse, items, hok, hitems, fun item hmem =>
    hstated (by decide) item (List.mem_append_left _ hmem)⟩

end SolidityHost.Abi
