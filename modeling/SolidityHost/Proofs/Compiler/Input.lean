import SolidityHost.Compiler.Input
import SolidityHost.Proofs.Legacy.Linked

/-!
# What is read of an input

An input is refused for one reason: the first of its language, its sources, their contents and its
libraries that is not as it must be. Of an input that is accepted, the files and their contents are
taken over in order, and the optimizer is on only if the input says so.
-/

set_option autoImplicit false

namespace SolidityHost.LegacyInput

variable {input : Json} {fault : FatalFault} {i : LegacyInput} {files : Entries Json}

def InSolidity (input : Json) : Prop := input.field? "language" = some (.string "Solidity")

def filesOf (input : Json) : Entries Json := ((input.field? "sources").bind Json.object?).getD []

def HasContent (source : Json) (content : String) : Prop :=
  source.field? "content" = some (.string content)

def mappingOf (input : Json) : Option Json :=
  (input.field? "settings").bind (·.field? "libraries")

def Optimizes (input : Json) : Prop :=
  ((input.field? "settings").bind (·.field? "optimizer")).bind (·.field? "enabled") =
    some (.bool true)

/-- Why an input is refused. Of several reasons the first counts. -/
inductive Faulty (input : Json) : FatalFault → Prop
  | language (h : ¬ InSolidity input) : Faulty input .wrongLanguage
  | sources (hl : InSolidity input) (h : filesOf input = []) : Faulty input .noSources
  | content (hl : InSolidity input) {file : String} {source : Json}
      (hmem : (file, source) ∈ filesOf input) (h : ∀ content, ¬ HasContent source content) :
      Faulty input .sourceWithoutContent
  | libraries (hl : InSolidity input) (hne : filesOf input ≠ [])
      (hc : ∀ e ∈ filesOf input, ∃ content, HasContent e.2 content) {mapping : Json}
      {error : NormalizationError} (hm : mappingOf input = some mapping)
      (h : LibraryMap.ofJson mapping = .error error) : Faulty input (.badLibraries error)

def SameFiles (files : Entries Json) (sources : Entries String) : Prop :=
  List.Forall₂ (fun e f => e.1 = f.1 ∧ HasContent e.2 f.2) files sources

structure Reads (input : Json) (i : LegacyInput) : Prop where
  language : InSolidity input
  nonempty : filesOf input ≠ []
  sources : SameFiles (filesOf input) i.sources
  optimize : i.optimize = true ↔ Optimizes input
  libraries : ∀ mapping, mappingOf input = some mapping →
    ∃ m, LibraryMap.ofJson mapping = .ok m ∧ i.libraries = some m
  noLibraries : mappingOf input = none → i.libraries = none

theorem SameFiles.exists_content {sources : Entries String} (h : SameFiles files sources) :
    ∀ e ∈ files, ∃ content, HasContent e.2 content := by
  induction h with
  | nil => nofun
  | cons hef _ ih => exact List.forall_mem_cons.2 ⟨⟨_, hef.2⟩, ih⟩

theorem bind_string?_eq_some_iff {j : Option Json} {s : String} :
    j.bind Json.string? = some s ↔ j = some (.string s) := by
  simp [Option.bind_eq_some_iff, Json.string?_eq_some_iff]

theorem contents_eq_ok {sources : Entries String} (h : contents files = .ok sources) :
    SameFiles files sources := by
  induction files generalizing sources with
  | nil =>
    obtain rfl := Except.ok.inj h
    exact .nil
  | cons e rest ih =>
    rw [contents] at h
    split at h
    · next content hcontent =>
      cases hrest : contents rest with
      | ok others =>
        rw [hrest] at h
        obtain rfl := Except.ok.inj h
        exact .cons ⟨rfl, bind_string?_eq_some_iff.1 hcontent⟩ (ih hrest)
      | error f =>
        rw [hrest] at h
        contradiction
    · contradiction

theorem contents_eq_error_iff :
    contents files = .error fault ↔
      fault = .sourceWithoutContent ∧ ∃ e ∈ files, ∀ content, ¬ HasContent e.2 content := by
  induction files with
  | nil => simp [contents]
  | cons e rest ih =>
    rw [contents]
    split
    · next content hcontent =>
      have hhas : HasContent e.2 content := bind_string?_eq_some_iff.1 hcontent
      have hrest : (contents rest).map ((e.1, content) :: ·) = .error fault ↔
          contents rest = .error fault := by
        cases contents rest <;> simp [Except.map]
      rw [hrest, ih, List.exists_mem_cons_iff]
      have hnot : ¬ ∀ content, ¬ HasContent e.2 content := fun h => h content hhas
      simp [hnot]
    · next hnone =>
      have hno : ∀ content, ¬ HasContent e.2 content :=
        fun content hhas => nomatch hnone.symm.trans (bind_string?_eq_some_iff.2 hhas)
      rw [List.exists_mem_cons_iff, Except.error.injEq, eq_comm]
      exact ⟨fun h => ⟨h, .inl hno⟩, And.left⟩

theorem sourcesOf_eq : sourcesOf input =
    if filesOf input = [] then .error .noSources else contents (filesOf input) := by
  unfold sourcesOf filesOf
  rcases (input.field? "sources").bind Json.object? with _ | _ | ⟨e, rest⟩ <;> simp

theorem sourcesOf_eq_ok {sources : Entries String} (h : sourcesOf input = .ok sources) :
    filesOf input ≠ [] ∧ SameFiles (filesOf input) sources := by
  rw [sourcesOf_eq] at h
  split at h
  · contradiction
  · next hne => exact ⟨hne, contents_eq_ok h⟩

theorem optimizeOf_eq_true_iff : optimizeOf (input.field? "settings") = true ↔ Optimizes input := by
  unfold optimizeOf Optimizes
  generalize ((input.field? "settings").bind _).bind _ = j
  rcases j with _ | j
  · simp
  · cases j <;> simp [Json.bool?]

theorem librariesOf_eq : librariesOf (input.field? "settings") =
    match mappingOf input with
    | none => .ok none
    | some mapping =>
      match LibraryMap.ofJson mapping with
      | .ok m => .ok (some m)
      | .error e => .error (.badLibraries e) := rfl

theorem ofJson_eq (hl : InSolidity input) : ofJson input = sourcesOf input >>= fun sources =>
    librariesOf (input.field? "settings") >>= fun libraries =>
      pure ⟨sources, optimizeOf (input.field? "settings"), libraries⟩ := by
  rw [ofJson, if_pos (bind_string?_eq_some_iff.2 hl)]

theorem reads_of_ofJson (h : ofJson input = .ok i) : Reads input i := by
  by_cases hl : InSolidity input
  · rw [ofJson_eq hl] at h
    obtain ⟨sources, hsources, h⟩ := bind_eq_ok_iff.1 h
    obtain ⟨libraries, hlibraries, h⟩ := bind_eq_ok_iff.1 h
    obtain rfl := Except.ok.inj h
    obtain ⟨hne, hsame⟩ := sourcesOf_eq_ok hsources
    rw [librariesOf_eq] at hlibraries
    refine ⟨hl, hne, hsame, optimizeOf_eq_true_iff, fun mapping hm => ?_, fun hm => ?_⟩
    · rw [hm] at hlibraries
      dsimp only at hlibraries
      split at hlibraries
      · next m hof => exact ⟨m, hof, (Except.ok.inj hlibraries).symm⟩
      · contradiction
    · rw [hm] at hlibraries
      exact (Except.ok.inj hlibraries).symm
  · rw [ofJson, if_neg (mt bind_string?_eq_some_iff.1 hl)] at h
    contradiction

theorem faulty_of_sourcesOf (hl : InSolidity input) (h : sourcesOf input = .error fault) :
    Faulty input fault := by
  rw [sourcesOf_eq] at h
  split at h
  · next hfiles =>
    obtain rfl := Except.error.inj h
    exact .sources hl hfiles
  · obtain ⟨rfl, e, he, hno⟩ := contents_eq_error_iff.1 h
    exact .content hl he hno

theorem librariesOf_eq_error_iff : librariesOf (input.field? "settings") = .error fault ↔
    ∃ mapping error, mappingOf input = some mapping ∧ LibraryMap.ofJson mapping = .error error ∧
      fault = .badLibraries error := by
  rw [librariesOf_eq]
  cases hm : mappingOf input with
  | none => simp
  | some mapping => cases hof : LibraryMap.ofJson mapping <;> simp [hof, eq_comm]

theorem faulty_of_ofJson (h : ofJson input = .error fault) : Faulty input fault := by
  by_cases hl : InSolidity input
  · rw [ofJson_eq hl] at h
    cases hsources : sourcesOf input with
    | error f =>
      rw [hsources] at h
      obtain rfl := Except.error.inj h
      exact faulty_of_sourcesOf hl hsources
    | ok sources =>
      obtain ⟨hne, hsame⟩ := sourcesOf_eq_ok hsources
      rw [hsources] at h
      cases hlibraries : librariesOf (input.field? "settings") with
      | error f =>
        rw [hlibraries] at h
        obtain rfl := Except.error.inj h
        obtain ⟨mapping, error, hm, hof, rfl⟩ := librariesOf_eq_error_iff.1 hlibraries
        exact .libraries hl hne hsame.exists_content hm hof
      | ok libraries =>
        rw [hlibraries] at h
        contradiction
  · rw [ofJson, if_neg (mt bind_string?_eq_some_iff.1 hl)] at h
    obtain rfl := Except.error.inj h
    exact .language hl

theorem Faulty.ofJson_eq (h : Faulty input fault) : ofJson input = .error fault := by
  cases h with
  | language hl => rw [ofJson, if_neg (mt bind_string?_eq_some_iff.1 hl)]
  | sources hl hfiles =>
    rw [LegacyInput.ofJson_eq hl, sourcesOf_eq, if_pos hfiles]
    rfl
  | content hl hmem hno =>
    have hbad := contents_eq_error_iff.2 ⟨rfl, _, hmem, hno⟩
    rw [LegacyInput.ofJson_eq hl, sourcesOf_eq, if_neg (List.ne_nil_of_mem hmem), hbad]
    rfl
  | libraries hl hne hc hm hof =>
    have hlibraries := librariesOf_eq_error_iff.2 ⟨_, _, hm, hof, rfl⟩
    cases hsources : contents (filesOf input) with
    | ok sources =>
      rw [LegacyInput.ofJson_eq hl, sourcesOf_eq, if_neg hne, hsources, hlibraries]
      rfl
    | error f =>
      obtain ⟨-, e, he, hno⟩ := contents_eq_error_iff.1 hsources
      obtain ⟨content, hcontent⟩ := hc e he
      exact absurd hcontent (hno content)

end SolidityHost.LegacyInput
