import SolidityHost.Legacy.Document
import SolidityHost.Proofs.Bytecode.Linking
import SolidityHost.Proofs.Json.Order

/-!
# Outcomes of normalization

A document is refused because of its contracts and of nothing else. A contract offends by a key that
cannot be split, by an interface that is not JSON, or by code where a library address is malformed.
Of several contracts that offend, the one with the smallest key decides how the document is refused.
-/

set_option autoImplicit false

namespace SolidityHost.Legacy

variable {α β : Type} {libraries : LibraryMap} {key name : String} {c : Json}

def Unsplittable (key : String) : Prop :=
  -- the key is empty, has several colons, or has nothing behind its colon
  key.toList = [] ∨ 1 < key.toList.count ':' ∨ key.toList.getLast? = some ':'

def BadInterface (c : Json) : Prop :=
  ∃ text, c.field? "interface" = some (.string text) ∧ Json.parse? text = none

def HasCode (c : Json) : Prop :=
  ∃ field ∈ ["bytecode", "runtimeBytecode"], ∃ code, c.field? field = some (.string code)

def BadCode (libraries : LibraryMap) (c : Json) : Prop :=
  HasCode c ∧ ∃ name, Bytecode.Malformed libraries.entries name

def Offends (libraries : LibraryMap) (key : String) (c : Json) : Prop :=
  Unsplittable key ∨ BadInterface c ∨ BadCode libraries c

structure LeastOffending (libraries : LibraryMap) (contracts : Entries Json) (key : String)
    (c : Json) : Prop where
  mem : (key, c) ∈ contracts
  offends : Offends libraries key c
  least : ∀ other d, (other, d) ∈ contracts → Offends libraries other d → other ≠ key →
    Utf8.encode key < Utf8.encode other

/-- What a contract that offends makes of its document. -/
inductive Decides (libraries : LibraryMap) (key : String) (c : Json) :
    Except NormalizationError (Option α) → Prop
  | key (hkey : Unsplittable key) : Decides libraries key c (.ok none)
  | interface (hkey : ¬ Unsplittable key) (hc : BadInterface c) :
      Decides libraries key c (.error .malformedJson)
  | address (hkey : ¬ Unsplittable key) (hc : ¬ BadInterface c) (hcode : HasCode c) {name : String}
      (hname : Bytecode.LeastMalformed libraries.entries name) :
      Decides libraries key c (.error (.invalidLibraryAddress name))

theorem splitKey?_of_colon {file name : List Char} (hkey : key.toList = file ++ ':' :: name)
    (hfile : ':' ∉ file) :
    splitKey? key =
      if name.isEmpty ∨ ':' ∈ name then none
      else some (String.ofList file, String.ofList name) := by
  unfold splitKey?
  dsimp only
  rw [hkey, Text.takeWhile_ne_of_notMem hfile, Text.dropWhile_ne_of_notMem hfile]
  rfl

theorem splitKey?_of_noColon (hkey : ':' ∉ key.toList) :
    splitKey? key = if key.toList.isEmpty then none else some ("", key) := by
  unfold splitKey?
  dsimp only
  rw [Text.dropWhile_ne_eq_nil hkey]
  simp [hkey]

theorem splitKey?_eq_none_iff : splitKey? key = none ↔ Unsplittable key := by
  unfold Unsplittable
  by_cases hcolon : ':' ∈ key.toList
  · obtain ⟨file, name, hkey, hfile⟩ := List.eq_append_cons_of_mem hcolon
    have hcount : (file ++ ':' :: name).count ':' = name.count ':' + 1 := by
      simp [List.count_eq_zero.2 hfile]
    have hlast : (file ++ ':' :: name).getLast? = some ':' ↔
        name = [] ∨ name.getLast? = some ':' := by
      cases name <;> simp [List.getLast?_cons]
    rw [splitKey?_of_colon hkey hfile, hkey, hcount, hlast]
    have hmem : name.getLast? = some ':' → ':' ∈ name := List.mem_of_getLast?
    simp only [ite_eq_left_iff, reduceCtorEq, imp_false, not_not, List.isEmpty_iff,
      List.append_eq_nil_iff, and_false, false_or, Nat.lt_add_left_iff_pos, List.count_pos_iff]
    tauto
  · have hcount : key.toList.count ':' = 0 := List.count_eq_zero.2 hcolon
    have hlast : key.toList.getLast? ≠ some ':' := fun h => hcolon (List.mem_of_getLast? h)
    rw [splitKey?_of_noColon hcolon]
    simp [hcount, hlast]

theorem bind_eq_error_iff {x : Except NormalizationError α} {f : α → Except NormalizationError β}
    {e : NormalizationError} :
    x >>= f = .error e ↔ x = .error e ∨ ∃ a, x = .ok a ∧ f a = .error e := by
  cases x <;> simp [bind, Except.bind]

theorem exists_ok_iff {x : Except NormalizationError α} :
    (∃ a, x = .ok a) ↔ ∀ e, x ≠ .error e := by
  cases x <;> simp

theorem interface_eq_error_iff {e : NormalizationError} :
    interface c = .error e ↔ BadInterface c ∧ e = .malformedJson := by
  unfold interface BadInterface
  cases c.field? "interface" with
  | none => simp
  | some j =>
    cases j with
    | string text => cases h : Json.parse? text <;> simp [h, eq_comm]
    | _ => simp

theorem bytecode_eq_error_iff {code : Option Json} {e : NormalizationError} :
    bytecode code libraries = .error e ↔
      (∃ text, code = some (.string text)) ∧ ∃ name, e = .invalidLibraryAddress name ∧
        Bytecode.LeastMalformed libraries.entries name := by
  cases code with
  | none => simp [bytecode, pure, Except.pure]
  | some j =>
    cases j with
    | string text =>
      rw [← Bytecode.link_eq_error_iff text]
      cases h : Bytecode.link text libraries <;> simp [bytecode, h, bind, Except.bind, pure, Except.pure]
    | _ => simp [bytecode, pure, Except.pure]

theorem exists_interface_iff : (∃ abi, interface c = .ok abi) ↔ ¬ BadInterface c := by
  simp [exists_ok_iff, interface_eq_error_iff]

/-- The two codes of a contract fail alike, so it does not matter which of them is linked first. -/
theorem codes_eq_error_iff {creation deployed : Option Json} {e : NormalizationError} :
    (bytecode creation libraries = .error e ∨
        (∃ out, bytecode creation libraries = .ok out) ∧ bytecode deployed libraries = .error e) ↔
      ((∃ text, creation = some (.string text)) ∨ ∃ text, deployed = some (.string text)) ∧
        ∃ name, e = .invalidLibraryAddress name ∧
          Bytecode.LeastMalformed libraries.entries name := by
  constructor
  · rintro (h | ⟨-, h⟩)
    · obtain ⟨htext, hname⟩ := bytecode_eq_error_iff.1 h
      exact ⟨.inl htext, hname⟩
    · obtain ⟨htext, hname⟩ := bytecode_eq_error_iff.1 h
      exact ⟨.inr htext, hname⟩
  · rintro ⟨htext, hname⟩
    by_cases hcreation : ∃ text, creation = some (.string text)
    · exact .inl (bytecode_eq_error_iff.2 ⟨hcreation, hname⟩)
    · refine .inr ⟨exists_ok_iff.2 fun e' he' => ?_,
        bytecode_eq_error_iff.2 ⟨htext.resolve_left hcreation, hname⟩⟩
      exact hcreation (bytecode_eq_error_iff.1 he').1

theorem contract_eq_error_iff {e : NormalizationError} :
    contract c libraries = .error e ↔
      (BadInterface c ∧ e = .malformedJson) ∨
        (¬ BadInterface c ∧ HasCode c ∧ ∃ name, e = .invalidLibraryAddress name ∧
          Bytecode.LeastMalformed libraries.entries name) := by
  have hbind : contract c libraries = .error e ↔ interface c = .error e ∨
      (∃ abi, interface c = .ok abi) ∧ (bytecode (c.field? "bytecode") libraries = .error e ∨
        (∃ out, bytecode (c.field? "bytecode") libraries = .ok out) ∧
          bytecode (c.field? "runtimeBytecode") libraries = .error e) := by
    simp [contract, bind_eq_error_iff, pure, Except.pure]
  rw [hbind, exists_interface_iff, interface_eq_error_iff, codes_eq_error_iff]
  simp [HasCode]

theorem exists_contract_iff :
    (∃ out, contract c libraries = .ok out) ↔ ¬ BadInterface c ∧ ¬ BadCode libraries c := by
  rw [exists_ok_iff, BadCode, ← Bytecode.exists_leastMalformed_iff]
  constructor
  · intro h
    have hc : ¬ BadInterface c := fun hc => h _ (contract_eq_error_iff.2 (.inl ⟨hc, rfl⟩))
    refine ⟨hc, fun ⟨hcode, name, hname⟩ => ?_⟩
    exact h _ (contract_eq_error_iff.2 (.inr ⟨hc, hcode, name, rfl, hname⟩))
  · rintro ⟨hc, hcode⟩ e he
    obtain ⟨hbad, -⟩ | ⟨-, hhas, name, -, hname⟩ := contract_eq_error_iff.1 he
    · exact hc hbad
    · exact hcode ⟨hhas, name, hname⟩

section

variable {contracts rest : Entries Json} {other : String} {d : Json}

theorem exists_contractsOf_cons (done : Dict (Dict ContractOutput)) (rest : Entries Json)
    (h : ¬ Offends libraries key c) :
    ∃ done', contractsOf libraries done ((key, c) :: rest) = contractsOf libraries done' rest := by
  obtain ⟨hkey, hc⟩ := not_or.1 h
  rw [← splitKey?_eq_none_iff] at hkey
  obtain ⟨⟨file, name⟩, hsplit⟩ := Option.ne_none_iff_exists'.1 hkey
  obtain ⟨out, hout⟩ := exists_contract_iff.2 (not_or.1 hc)
  exact ⟨_, by rw [contractsOf, hsplit, hout]; rfl⟩

theorem decides_contractsOf_cons (done : Dict (Dict ContractOutput)) (rest : Entries Json)
    (h : Offends libraries key c) :
    Decides libraries key c (contractsOf libraries done ((key, c) :: rest)) := by
  cases hsplit : splitKey? key with
  | none =>
    rw [contractsOf, hsplit]
    exact .key (splitKey?_eq_none_iff.1 hsplit)
  | some parts =>
    have hkey : ¬ Unsplittable key := by
      rw [← splitKey?_eq_none_iff, hsplit]
      exact nofun
    cases hcontract : contract c libraries with
    | ok out => exact absurd h (not_or.2 ⟨hkey, not_or.2 (exists_contract_iff.1 ⟨out, hcontract⟩)⟩)
    | error e =>
      rw [contractsOf, hsplit, hcontract]
      obtain ⟨hc, rfl⟩ | ⟨hc, hcode, name, rfl, hname⟩ := contract_eq_error_iff.1 hcontract
      · exact .interface hkey hc
      · exact .address hkey hc hcode hname

theorem leastOffending_cons_of_sound (h : ¬ Offends libraries other d) :
    LeastOffending libraries ((other, d) :: rest) key c ↔ LeastOffending libraries rest key c := by
  have hmem (k : String) (j : Json) (hj : Offends libraries k j) :
      (k, j) ∈ (other, d) :: rest ↔ (k, j) ∈ rest := by
    refine ⟨fun hin => (List.mem_cons.1 hin).resolve_left fun heq => ?_, List.mem_cons_of_mem _⟩
    obtain ⟨rfl, rfl⟩ := Prod.mk.inj heq
    exact h hj
  constructor
  · intro hl
    exact ⟨(hmem _ _ hl.offends).1 hl.mem, hl.offends,
      fun k j hin hj => hl.least k j ((hmem k j hj).2 hin) hj⟩
  · intro hl
    exact ⟨(hmem _ _ hl.offends).2 hl.mem, hl.offends,
      fun k j hin hj => hl.least k j ((hmem k j hj).1 hin) hj⟩

theorem leastOffending_cons_of_offends (ho : Entries.Ordered ((other, d) :: rest))
    (h : Offends libraries other d) :
    LeastOffending libraries ((other, d) :: rest) key c ↔ key = other ∧ c = d := by
  have behind : ∀ e ∈ rest, Utf8.encode other < Utf8.encode e.1 :=
    fun e he => Utf8.encode_lt ((List.pairwise_cons.1 ho).1 e he)
  constructor
  · intro hl
    obtain heq | hin := List.mem_cons.1 hl.mem
    · exact Prod.mk.inj heq
    · by_cases hkey : other = key
      · exact absurd (hkey ▸ behind _ hin) (List.lt_irrefl _)
      · exact absurd (hl.least other d List.mem_cons_self h hkey) (List.lt_asymm (behind _ hin))
  · rintro ⟨rfl, rfl⟩
    refine ⟨List.mem_cons_self, h, fun k j hin _ hne => ?_⟩
    obtain heq | hin := List.mem_cons.1 hin
    · exact absurd (Prod.mk.inj heq).1 hne
    · exact behind _ hin

theorem exists_contractsOf_iff (done : Dict (Dict ContractOutput)) (contracts : Entries Json) :
    (∃ out, contractsOf libraries done contracts = .ok (some out)) ↔
      ∀ e ∈ contracts, ¬ Offends libraries e.1 e.2 := by
  induction contracts generalizing done with
  | nil => simp [contractsOf]
  | cons e rest ih =>
    obtain ⟨key, c⟩ := e
    rw [List.forall_mem_cons]
    -- a contract that offends ends the loop, any other leaves the outcome to the rest
    by_cases h : Offends libraries key c
    · have hd := decides_contractsOf_cons done rest h
      refine ⟨fun ⟨out, hout⟩ => ?_, fun hn => absurd h hn.1⟩
      rw [hout] at hd
      exact nomatch hd
    · obtain ⟨done', hdone⟩ := exists_contractsOf_cons done rest h
      rw [hdone, ih done']
      exact ⟨fun hrest => ⟨h, hrest⟩, And.right⟩

theorem decides_contractsOf (done : Dict (Dict ContractOutput)) (ho : contracts.Ordered)
    (hl : LeastOffending libraries contracts key c) :
    Decides libraries key c (contractsOf libraries done contracts) := by
  induction contracts generalizing done with
  | nil => exact nomatch hl.mem
  | cons e rest ih =>
    obtain ⟨other, d⟩ := e
    by_cases h : Offends libraries other d
    · obtain ⟨rfl, rfl⟩ := (leastOffending_cons_of_offends ho h).1 hl
      exact decides_contractsOf_cons done rest h
    · obtain ⟨done', hdone⟩ := exists_contractsOf_cons done rest h
      rw [hdone]
      exact ih done' (List.pairwise_cons.1 ho).2 ((leastOffending_cons_of_sound h).1 hl)

theorem exists_leastOffending (ho : contracts.Ordered)
    (h : ∃ e ∈ contracts, Offends libraries e.1 e.2) :
    ∃ key c, LeastOffending libraries contracts key c := by
  induction contracts with
  | nil =>
    obtain ⟨e, he, -⟩ := h
    exact nomatch he
  | cons e rest ih =>
    obtain ⟨other, d⟩ := e
    by_cases hd : Offends libraries other d
    · exact ⟨other, d, (leastOffending_cons_of_offends ho hd).2 ⟨rfl, rfl⟩⟩
    · simp only [List.exists_mem_cons_iff, hd, false_or] at h
      obtain ⟨key, c, hl⟩ := ih (List.pairwise_cons.1 ho).2 h
      exact ⟨key, c, (leastOffending_cons_of_sound hd).2 hl⟩

end

def contractsIn (document : Json) : Entries Json :=
  ((document.field? "contracts").bind Json.object?).getD []

theorem Decides.map {r : Except NormalizationError (Option α)} (h : Decides libraries key c r)
    (f : α → β) : Decides libraries key c (r.map (Option.map f)) := by
  cases h with
  | key hkey => exact .key hkey
  | interface hkey hc => exact .interface hkey hc
  | address hkey hc hcode hname => exact .address hkey hc hcode hname

theorem exists_normalize_eq (fields : Entries Json) (libraries : LibraryMap) :
    ∃ f, normalize (.object fields) libraries =
      (contractsOf libraries Dict.empty (contractsIn (.object fields))).map (Option.map f) :=
  ⟨_, rfl⟩

/-- A document is brought into the stable form exactly if none of its contracts offends. Otherwise
the contract that offends under the smallest key decides how it is refused. -/
theorem normalize_outcome {fields : Entries Json} (ho : (contractsIn (.object fields)).Ordered)
    (libraries : LibraryMap) :
    ((∃ out, normalize (.object fields) libraries = .ok (some out)) ↔
        ∀ e ∈ contractsIn (.object fields), ¬ Offends libraries e.1 e.2) ∧
      ((∃ e ∈ contractsIn (.object fields), Offends libraries e.1 e.2) →
        ∃ key c, LeastOffending libraries (contractsIn (.object fields)) key c) ∧
      ∀ key c, LeastOffending libraries (contractsIn (.object fields)) key c →
        Decides libraries key c (normalize (.object fields) libraries) := by
  obtain ⟨f, hf⟩ := exists_normalize_eq fields libraries
  rw [hf]
  refine ⟨?_, exists_leastOffending ho, fun key c hl => (decides_contractsOf _ ho hl).map f⟩
  rw [← exists_contractsOf_iff Dict.empty]
  rcases contractsOf libraries Dict.empty (contractsIn (.object fields)) with e | _ | out <;>
    simp [Except.map]

def mixed : Entries Json :=
  [("contracts", .object [("a", .object [("bytecode", .string "60")]), ("b:", .null)])]

def misplaced : LibraryMap := .ofList [("L", "nowhere")]

theorem normalize_outcome_mixed :
    (contractsIn (.object mixed)).Ordered ∧
      LeastOffending misplaced (contractsIn (.object mixed)) "a"
        (.object [("bytecode", .string "60")]) ∧
      Decides misplaced "a" (.object [("bytecode", .string "60")])
        (normalize (.object mixed) misplaced) ∧
      ¬ ∃ out, normalize (.object mixed) misplaced = .ok (some out) := by
  have hlt : "a" < "b:" := by decide
  have ho : (contractsIn (.object mixed)).Ordered := List.pairwise_pair.2 hlt
  have hmalformed : Bytecode.Malformed misplaced.entries "L" := by
    refine ⟨"nowhere", List.mem_singleton.2 rfl, ?_⟩
    rw [Address.wellFormed_iff_isSome]
    decide
  have hl : LeastOffending misplaced (contractsIn (.object mixed)) "a"
      (.object [("bytecode", .string "60")]) := by
    refine ⟨List.mem_cons_self, .inr (.inr ⟨⟨"bytecode", by simp, "60", rfl⟩, "L", hmalformed⟩), ?_⟩
    intro other d hin _ hne
    obtain heq | hin := List.mem_cons.1 hin
    · exact absurd (Prod.mk.inj heq).1 hne
    · obtain ⟨rfl, -⟩ := Prod.mk.inj (List.mem_singleton.1 hin)
      exact Utf8.encode_lt hlt
  obtain ⟨hiff, -, hdecides⟩ := normalize_outcome ho misplaced
  refine ⟨ho, hl, hdecides _ _ hl, fun hout => ?_⟩
  exact hiff.1 hout _ hl.mem hl.offends

end SolidityHost.Legacy
