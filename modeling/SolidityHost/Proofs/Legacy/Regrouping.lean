import SolidityHost.Proofs.Legacy.Survival

/-!
# Contracts, sources and messages one to one

The flat keys of the contracts of a document become a file and a name. A key may be written with or
without a colon if there is no file, so two keys may mean one contract, and then the later one
counts; otherwise each contract is found under its own file and name. Sources keep their names, each
with its position in the list of sources, and each message becomes a diagnostic.
-/

set_option autoImplicit false

namespace SolidityHost.Legacy

variable {libraries : LibraryMap} {document : Json} {key file name : String}

/-- The key is written for this contract: file and name with a colon between them, or the bare name
if there is no file. -/
def Spells (key file name : String) : Prop :=
  ':' ∉ file.toList ∧ ':' ∉ name.toList ∧ name ≠ "" ∧
    (key = file ++ ":" ++ name ∨ file = "" ∧ key = name)

theorem splitKey?_qualified (hfile : ':' ∉ file.toList) (hname : ':' ∉ name.toList)
    (hne : name ≠ "") : splitKey? (file ++ ":" ++ name) = some (file, name) := by
  have hkey : (file ++ ":" ++ name).toList = file.toList ++ ':' :: name.toList := by simp
  rw [splitKey?_of_colon hkey hfile, if_neg]
  · simp
  · simpa [hname] using hne

theorem splitKey?_bare (hname : ':' ∉ name.toList) (hne : name ≠ "") :
    splitKey? name = some ("", name) := by
  rw [splitKey?_of_noColon hname, if_neg]
  simpa using hne

theorem splitKey?_eq_some_iff : splitKey? key = some (file, name) ↔ Spells key file name := by
  constructor
  · intro h
    by_cases hcolon : ':' ∈ key.toList
    · obtain ⟨front, back, hkey, hfront⟩ := List.eq_append_cons_of_mem hcolon
      rw [splitKey?_of_colon hkey hfront] at h
      split at h
      · contradiction
      · next hback =>
        obtain ⟨rfl, rfl⟩ := Prod.mk.inj (Option.some.inj h)
        obtain ⟨hne, hcolon⟩ : back ≠ [] ∧ ':' ∉ back := by simpa using hback
        refine ⟨by simpa using hfront, by simpa using hcolon, by simpa using hne, .inl ?_⟩
        exact String.toList_injective (by simp [hkey])
    · rw [splitKey?_of_noColon hcolon] at h
      split at h
      · contradiction
      · next hne =>
        obtain ⟨rfl, rfl⟩ := Prod.mk.inj (Option.some.inj h)
        exact ⟨by simp, hcolon, by simpa using hne, .inr ⟨rfl, rfl⟩⟩
  · rintro ⟨hfile, hname, hne, rfl | ⟨rfl, rfl⟩⟩
    · exact splitKey?_qualified hfile hname hne
    · exact splitKey?_bare hname hne

def SplitApart (contracts : Entries Json) : Prop :=
  contracts.Pairwise fun a b => ∀ file name, Spells a.1 file name → ¬ Spells b.1 file name

section

variable {contracts : Entries Json} {done out : Dict (Dict ContractOutput)}

/-- What is found under a file and a name when the loop ends: the translation of the last contract
whose key is written for them, or what was there before if there is none. -/
theorem lookup_contractsOf (h : contractsOf libraries done contracts = .ok (some out))
    (file name : String) :
    (∃ before e after c, contracts = before ++ e :: after ∧ Spells e.1 file name ∧
        (∀ d ∈ after, ¬ Spells d.1 file name) ∧ contract e.2 libraries = .ok c ∧
        out.lookup file name = some c) ∨
      (∀ e ∈ contracts, ¬ Spells e.1 file name) ∧ out.lookup file name = done.lookup file name := by
  induction contracts generalizing done with
  | nil =>
    obtain rfl := Option.some.inj (Except.ok.inj h)
    exact .inr ⟨nofun, rfl⟩
  | cons e rest ih =>
    obtain ⟨key, j⟩ := e
    rw [contractsOf] at h
    split at h
    · cases Except.ok.inj h
    · next f n hsplit =>
      obtain ⟨c, hc, h⟩ := bind_eq_ok_iff.1 h
      rcases ih h with ⟨before, e, after, c', rfl, hlast⟩ | ⟨hnone, hget⟩
      · exact .inl ⟨_ :: before, e, after, c', rfl, hlast⟩
      · rw [Dict.lookup_alter_insert] at hget
        split at hget
        · next heq =>
          obtain ⟨rfl, rfl⟩ := heq
          exact .inl ⟨[], _, rest, c, rfl, splitKey?_eq_some_iff.1 hsplit, hnone, hc, hget⟩
        · next hne =>
          refine .inr ⟨List.forall_mem_cons.2 ⟨fun hspells => hne ?_, hnone⟩, hget⟩
          have hsame := hsplit.symm.trans (splitKey?_eq_some_iff.2 hspells)
          obtain ⟨rfl, rfl⟩ := Prod.mk.inj (Option.some.inj hsame)
          exact ⟨rfl, rfl⟩

theorem mem_paths_contractsOf (h : contractsOf libraries .empty contracts = .ok (some out)) :
    (file, name) ∈ out.paths ↔ ∃ e ∈ contracts, Spells e.1 file name := by
  rw [Dict.mem_paths_iff]
  rcases lookup_contractsOf h file name with
    ⟨before, e, after, c, rfl, hspells, -, -, hget⟩ | ⟨hnone, hget⟩
  · exact ⟨fun _ => ⟨e, by simp, hspells⟩, fun _ => ⟨c, hget⟩⟩
  · constructor
    · rintro ⟨c, hc⟩
      exact nomatch hget.symm.trans hc
    · rintro ⟨e, he, hspells⟩
      exact absurd hspells (hnone e he)

/-- A document with a key that cannot be split is given up. -/
theorem splitKey?_ne_none (h : contractsOf libraries done contracts = .ok (some out)) :
    ∀ e ∈ contracts, splitKey? e.1 ≠ none := by
  intro e he hnone
  have hoffends := (exists_contractsOf_iff done contracts).1 ⟨out, h⟩ e he
  exact hoffends (.inl (splitKey?_eq_none_iff.1 hnone))

theorem exists_spells (h : contractsOf libraries done contracts = .ok (some out)) :
    ∀ e ∈ contracts, ∃ file name, Spells e.1 file name := by
  intro e he
  obtain ⟨⟨file, name⟩, hsome⟩ := Option.ne_none_iff_exists'.1 (splitKey?_ne_none h e he)
  exact ⟨file, name, splitKey?_eq_some_iff.1 hsome⟩

/-- Contracts that do not share a file and a name are all found, each with its own translation. -/
theorem lookup_of_splitApart (h : contractsOf libraries done contracts = .ok (some out))
    (hapart : SplitApart contracts) {e : String × Json} (he : e ∈ contracts)
    (hspells : Spells e.1 file name) :
    ∃ c, contract e.2 libraries = .ok c ∧ out.lookup file name = some c := by
  rcases lookup_contractsOf h file name with
    ⟨before, d, after, c, rfl, hd, hafter, hc, hget⟩ | ⟨hnone, -⟩
  · refine ⟨c, ?_, hget⟩
    rcases List.mem_append.1 he with hbefore | he
    · have hacross := (List.pairwise_append.1 hapart).2.2 e hbefore d List.mem_cons_self
      exact absurd hd (hacross file name hspells)
    · rcases List.mem_cons.1 he with rfl | hbehind
      · exact hc
      · exact absurd hspells (hafter e hbehind)
  · exact absurd hspells (hnone e he)

/-- As many contracts come out as go in: the keys and the files with names are the same list up to
the order. -/
theorem length_paths_contractsOf (h : contractsOf libraries .empty contracts = .ok (some out))
    (hapart : SplitApart contracts) : out.paths.length = contracts.length := by
  have hkeys : (contracts.map fun e => splitKey? e.1).Nodup := by
    refine List.pairwise_map.2 (hapart.imp_of_mem fun {a b} ha _ hab heq => ?_)
    obtain ⟨file, name, hspells⟩ := exists_spells h a ha
    have hsome := splitKey?_eq_some_iff.2 hspells
    exact hab file name hspells (splitKey?_eq_some_iff.1 (heq ▸ hsome))
  have hpaths : (out.paths.map some).Nodup :=
    List.pairwise_map.2 (out.nodup_paths.imp fun hne heq => hne (Option.some.inj heq))
  have hperm : (out.paths.map some).Perm (contracts.map fun e => splitKey? e.1) := by
    refine (List.perm_ext_iff_of_nodup hpaths hkeys).2 fun split => ?_
    rcases split with _ | ⟨file, name⟩
    · simpa using fun key j he => splitKey?_ne_none h (key, j) he
    · simp [mem_paths_contractsOf h, splitKey?_eq_some_iff]
  simpa using hperm.length_eq

end

def sourceListIn (document : Json) : List Json :=
  ((document.field? "sourceList").bind Json.array?).getD []

def LastAt (list : List Json) (name : String) (i : Nat) : Prop :=
  list[i]? = some (.string name) ∧ ∀ k, i < k → list[k]? ≠ some (.string name)

def lastPosition? (list : List Json) (name : String) : Option Nat :=
  (list.zipIdx.filter fun e => e.1.string? = some name).getLast?.map (·.2)

theorem sourceId?_eq (document : Json) (name : String) :
    sourceId? document name = lastPosition? (sourceListIn document) name := rfl

theorem lastPosition?_concat (list : List Json) (j : Json) (name : String) :
    lastPosition? (list ++ [j]) name =
      if j.string? = some name then some list.length else lastPosition? list name := by
  rw [lastPosition?, List.zipIdx_append, List.filter_append]
  by_cases hj : j.string? = some name <;> simp [hj, lastPosition?]

theorem getElem?_concat_eq_some_iff {list : List Json} {j k : Json} {i : Nat} :
    (list ++ [j])[i]? = some k ↔ list[i]? = some k ∨ i = list.length ∧ j = k := by
  rcases Nat.lt_trichotomy i list.length with hlt | rfl | hlt
  · simp [List.getElem?_append_left hlt, Nat.ne_of_lt hlt]
  · simp
  · have hend : (list ++ [j])[i]? = none :=
      List.getElem?_eq_none (List.length_append ▸ Nat.succ_le_of_lt hlt)
    have hrest : list[i]? = none := List.getElem?_eq_none (Nat.le_of_lt hlt)
    simp [hend, hrest, Nat.ne_of_gt hlt]

theorem lastAt_concat {list : List Json} {j : Json} {i : Nat} : LastAt (list ++ [j]) name i ↔
    if j.string? = some name then i = list.length else LastAt list name i := by
  have hbound {k : Nat} (hk : list[k]? = some (.string name)) : k < list.length :=
    (List.getElem?_eq_some_iff.1 hk).1
  simp only [LastAt, getElem?_concat_eq_some_iff, ne_eq, not_or, not_and]
  by_cases hj : j = .string name
  · rw [if_pos (Json.string?_eq_some_iff.2 hj)]
    constructor
    · rintro ⟨hi | ⟨hi, -⟩, hlast⟩
      · exact absurd hj ((hlast list.length (hbound hi)).2 rfl)
      · exact hi
    · rintro rfl
      refine ⟨.inr ⟨rfl, hj⟩, fun k hk => ⟨fun hsome => ?_, fun heq => absurd heq (Nat.ne_of_gt hk)⟩⟩
      exact absurd (hbound hsome) (Nat.lt_asymm hk)
  · rw [if_neg (mt Json.string?_eq_some_iff.1 hj)]
    simp [hj]

theorem lastPosition?_eq_some_iff {list : List Json} {i : Nat} :
    lastPosition? list name = some i ↔ LastAt list name i := by
  induction list using List.reverseRecOn with
  | nil => simp [lastPosition?, LastAt]
  | append_singleton list j ih =>
    rw [lastPosition?_concat, lastAt_concat, ← ih]
    split
    · rw [Option.some.injEq, eq_comm]
    · rfl

theorem lastPosition?_eq_none_iff {list : List Json} :
    lastPosition? list name = none ↔ .string name ∉ list := by
  induction list using List.reverseRecOn with
  | nil => simp [lastPosition?]
  | append_singleton list j ih =>
    rw [lastPosition?_concat, List.mem_append, List.mem_singleton]
    by_cases hj : .string name = j
    · simp [hj, Json.string?_eq_some_iff.2 hj.symm]
    · simp [hj, ih, mt Json.string?_eq_some_iff.1 (Ne.symm hj)]

theorem id_of_get?_sourcesOf {source : SourceOutput}
    (h : (sourcesOf document).get? name = some source) :
    source.id = lastPosition? (sourceListIn document) name := by
  have hmem := Dict.mem_entries_iff.2 h
  rw [sourcesOf, Dict.entries_ofList] at hmem
  obtain ⟨e, -, heq⟩ := List.mem_map.1 (Entries.mem_ofList hmem)
  obtain ⟨rfl, rfl⟩ := Prod.mk.inj heq
  exact sourceId?_eq document e.1

theorem mem_keys_sourcesOf :
    name ∈ (sourcesOf document).keys ↔ name ∈ (sourcesIn document).map (·.1) := by
  rw [sourcesOf, Dict.mem_keys_ofList, List.map_map]
  rfl

def errorsIn (document : Json) : List String :=
  (((document.field? "errors").bind Json.array?).getD []).filterMap Json.string?

def HasError (document : Json) (error : String) : Prop :=
  document.field? "error" = some (.string error) ∧ error ≠ ""

theorem messages_of_hasError {error : String} (h : HasError document error) :
    messages document = [error] := by
  obtain ⟨hfield, hne⟩ := h
  simp [messages, hfield, hne]

theorem messages_of_not_hasError (h : ∀ error, ¬ HasError document error) :
    messages document = errorsIn document := by
  have hlist : ((document.field? "errors").map Json.strings).getD [] = errorsIn document := by
    cases hfield : document.field? "errors" <;> simp [errorsIn, hfield, Json.strings]
  unfold messages
  split
  · next error hfield =>
    have hempty : error = "" := Classical.byContradiction fun hne => h error ⟨hfield, hne⟩
    rw [hempty, ← hlist]
    rfl
  · exact hlist

/-- What a document and its stable form have in common. -/
structure Corresponds (libraries : LibraryMap) (document : Json) (out : Output) : Prop where
  keys : ∀ e ∈ contractsIn document, ∃ file name, Spells e.1 file name
  contracts : ∀ file name, (file, name) ∈ out.contracts.paths ↔
    ∃ e ∈ contractsIn document, Spells e.1 file name
  listedOnce : out.contracts.paths.Nodup
  translated : SplitApart (contractsIn document) → ∀ e ∈ contractsIn document, ∀ file name,
    Spells e.1 file name →
      ∃ c, contract e.2 libraries = .ok c ∧ out.contracts.lookup file name = some c
  number : SplitApart (contractsIn document) →
    out.contracts.paths.length = (contractsIn document).length
  sources : ∀ name, name ∈ out.sources.keys ↔ name ∈ (sourcesIn document).map (·.1)
  position : ∀ name source, out.sources.get? name = some source →
    (∀ i, source.id = some i ↔ LastAt (sourceListIn document) name i) ∧
      (source.id = none ↔ .string name ∉ sourceListIn document)
  error : ∀ error, HasError document error → out.diagnostics = [diagnostic error]
  errors : (∀ error, ¬ HasError document error) →
    out.diagnostics = (errorsIn document).map diagnostic

/-- The contracts, sources and messages of a document are those of its stable form. -/
theorem normalize_corresponds {out : Output} (h : normalize document libraries = .ok (some out)) :
    Corresponds libraries document out := by
  obtain ⟨contracts, hcontracts, rfl⟩ := exists_contracts_of_normalize h
  exact {
    keys := exists_spells hcontracts
    contracts := fun file name => mem_paths_contractsOf hcontracts
    listedOnce := contracts.nodup_paths
    translated := fun hapart e he file name => lookup_of_splitApart hcontracts hapart he
    number := length_paths_contractsOf hcontracts
    sources := fun name => mem_keys_sourcesOf
    position := by
      intro name source hsource
      rw [id_of_get?_sourcesOf hsource]
      exact ⟨fun i => lastPosition?_eq_some_iff, lastPosition?_eq_none_iff⟩
    error := by
      intro error herror
      rw [messages_of_hasError herror]
      rfl
    errors := by
      intro hnone
      rw [messages_of_not_hasError hnone] }

def listing : Json :=
  .object [
    ("contracts", .object [(":C", .object []), ("a.sol:C", .null)]),
    ("errors", .array [.string "Warning: odd", .null, .string "lost"]),
    ("sourceList", .array [.string "a.sol", .null, .string "a.sol", .string "b.sol"]),
    ("sources", .object [("a.sol", .object []), ("c.sol", .null)])]

theorem normalize_corresponds_listing :
    ∃ out, normalize listing .empty = .ok (some out) ∧ Corresponds .empty listing out ∧
      SplitApart (contractsIn listing) ∧ out.contracts.paths = [("", "C"), ("a.sol", "C")] ∧
      LastAt (sourceListIn listing) "a.sol" 2 ∧
      out.sources.entries.map (fun e => (e.1, e.2.id)) = [("a.sol", some 2), ("c.sol", none)] ∧
      out.diagnostics.map (·.message) = ["Warning: odd", "lost"] := by
  have hapart : SplitApart (contractsIn listing) := by
    have hkeys : (contractsIn listing).Pairwise fun a b => splitKey? a.1 ≠ splitKey? b.1 := by
      decide
    refine hkeys.imp fun hne file name ha hb => hne ?_
    rw [splitKey?_eq_some_iff.2 ha, splitKey?_eq_some_iff.2 hb]
  have hlast : LastAt (sourceListIn listing) "a.sol" 2 := by
    rw [← lastPosition?_eq_some_iff]
    decide
  refine ⟨_, rfl, normalize_corresponds rfl, hapart, ?_, hlast, ?_, ?_⟩
  all_goals decide

end SolidityHost.Legacy
