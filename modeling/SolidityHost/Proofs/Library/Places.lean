import SolidityHost.Library.Map
import SolidityHost.Proofs.Dict
import SolidityHost.Proofs.Json.Order
import SolidityHost.Text.Search

/-!
# Places of library mappings

An address belongs under a key of a mapping, or under the name of a library of a file. The loop over
the keys and the loop over the libraries of a file are one loop over these places in key order. It
stops at the first place without an address. A place registers its address under its identifier and
under a bare name, in place of what was there; so the last place that has a name decides.
-/

set_option autoImplicit false

namespace SolidityHost

namespace LibraryMap

variable {key file name x address : String} {m m' : LibraryMap} {fields : Entries Json}

/-- The key is a file and a name with the first colon between them. Neither is empty, and the name
stays on one line. -/
def Splits (key file name : String) : Prop :=
  key = qualify file name ∧ ':' ∉ file.toList ∧ file ≠ "" ∧ name ≠ "" ∧ '\n' ∉ name.toList

theorem toList_qualify (file name : String) :
    (qualify file name).toList = file.toList ++ ':' :: name.toList := by
  simp [qualify]

theorem bareName?_qualify (h : ':' ∉ file.toList) (name : String) :
    bareName? (qualify file name) =
      if file = "" ∨ name = "" ∨ '\n' ∈ name.toList then none else some name := by
  unfold bareName?
  dsimp only
  rw [toList_qualify, Text.takeWhile_ne_of_notMem h, Text.dropWhile_ne_of_notMem h]
  simp

theorem bareName?_of_noColon (h : ':' ∉ key.toList) : bareName? key = none := by
  unfold bareName?
  dsimp only
  rw [Text.dropWhile_ne_eq_nil h]

theorem exists_qualify_of_colon (h : ':' ∈ key.toList) :
    ∃ file name, key = qualify file name ∧ ':' ∉ file.toList := by
  obtain ⟨file, name, hkey, hfile⟩ := List.eq_append_cons_of_mem h
  refine ⟨String.ofList file, String.ofList name, String.toList_injective ?_, by simpa using hfile⟩
  simp [toList_qualify, hkey]

theorem bareName?_eq_some_iff : bareName? key = some name ↔ ∃ file, Splits key file name := by
  constructor
  · intro h
    by_cases hcolon : ':' ∈ key.toList
    · obtain ⟨file, rest, rfl, hfile⟩ := exists_qualify_of_colon hcolon
      rw [bareName?_qualify hfile] at h
      split at h
      · contradiction
      · next hparts =>
        obtain rfl := Option.some.inj h
        simp only [not_or] at hparts
        exact ⟨file, rfl, hfile, hparts⟩
    · rw [bareName?_of_noColon hcolon] at h
      contradiction
  · rintro ⟨file, rfl, hfile, hparts⟩
    rw [bareName?_qualify hfile, if_neg]
    simpa only [not_or] using hparts

structure Place where
  key : String
  library : Option String
  deriving DecidableEq

namespace Place

def identifier (p : Place) : String :=
  match p.library with
  | none => p.key
  | some name => qualify p.key name

def Derives (p : Place) (x : String) : Prop :=
  match p.library with
  | none => ∃ file, Splits p.key file x
  | some name => x = name

def Names (p : Place) (x : String) : Prop := x = p.identifier ∨ p.Derives x

/-- The place comes earlier in key order. The libraries of a file stand where the file stands. -/
def Before (p q : Place) : Prop :=
  p.key < q.key ∨
    p.key = q.key ∧ ∃ m n, p.library = some m ∧ q.library = some n ∧ m < n

theorem Before.asymm {p q : Place} (h : p.Before q) : ¬ q.Before p := by
  rintro (hqp | ⟨hkey, m, n, hm, hn, hlt⟩)
  · rcases h with hpq | ⟨hkey, -⟩
    · exact String.lt_irrefl _ (String.lt_trans hpq hqp)
    · exact String.lt_irrefl _ (hkey ▸ hqp)
  · rcases h with hpq | ⟨-, k, l, hk, hl, hpq⟩
    · exact String.lt_irrefl _ (hkey ▸ hpq)
    · obtain rfl := Option.some.inj (hl.symm.trans hm)
      obtain rfl := Option.some.inj (hk.symm.trans hn)
      exact String.lt_irrefl _ (String.lt_trans hpq hlt)

theorem Before.ne {p q : Place} (h : p.Before q) : p ≠ q := by
  rintro rfl
  exact h.asymm h

end Place

def IsAddress (j : Json) : Prop := ∃ address, j = .string address

theorem inOrder_of_addresses (ho : fields.Ordered) (h : ∀ e ∈ fields, IsAddress e.2) :
    (Json.object fields).InOrder := by
  refine .object ho fun e he => ?_
  obtain ⟨address, haddress⟩ := h e he
  rw [haddress]
  exact .string address

def leavesOf (e : String × Json) : List (Place × Json) :=
  match e.2 with
  | .object libraries => libraries.map fun l => (⟨e.1, some l.1⟩, l.2)
  | j => [(⟨e.1, none⟩, j)]

def leaves (fields : Entries Json) : List (Place × Json) := fields.flatMap leavesOf

theorem mem_leaves_key :
    (⟨key, none⟩, .string address) ∈ leaves fields ↔ (key, .string address) ∈ fields := by
  constructor
  · intro h
    obtain ⟨⟨k, i⟩, he, hl⟩ := List.mem_flatMap.1 h
    cases i with
    | object libraries =>
      obtain ⟨l, -, heq⟩ := List.mem_map.1 hl
      cases heq
    | string _ =>
      cases List.mem_singleton.1 hl
      exact he
    | _ => cases List.mem_singleton.1 hl
  · exact fun h => List.mem_flatMap.2 ⟨_, h, List.mem_singleton.2 rfl⟩

theorem mem_leaves_library {j : Json} : (⟨file, some name⟩, j) ∈ leaves fields ↔
    ∃ libraries, (file, .object libraries) ∈ fields ∧ (name, j) ∈ libraries := by
  constructor
  · intro h
    obtain ⟨⟨k, i⟩, he, hl⟩ := List.mem_flatMap.1 h
    cases i with
    | object libraries =>
      obtain ⟨l, hmem, heq⟩ := List.mem_map.1 hl
      cases heq
      exact ⟨libraries, he, hmem⟩
    | _ => cases List.mem_singleton.1 hl
  · rintro ⟨libraries, he, hmem⟩
    exact List.mem_flatMap.2 ⟨_, he, List.mem_map.2 ⟨_, hmem, rfl⟩⟩

theorem key_of_mem_leavesOf {e : String × Json} {l : Place × Json} (h : l ∈ leavesOf e) :
    l.1.key = e.1 := by
  unfold leavesOf at h
  split at h
  · obtain ⟨d, -, rfl⟩ := List.mem_map.1 h
    rfl
  · obtain rfl := List.mem_singleton.1 h
    rfl

/-- The places of a mapping are listed in key order. -/
theorem pairwise_leaves (h : (Json.object fields).InOrder) :
    (leaves fields).Pairwise fun a b => a.1.Before b.1 := by
  cases h with
  | object ho hall =>
    refine List.pairwise_flatMap.2 ⟨fun e he => ?within, ho.imp ?across⟩
    case within =>
      have hlibraries := hall e he
      unfold leavesOf
      split
      · next libraries heq =>
        rw [heq] at hlibraries
        cases hlibraries with
        | object ho _ =>
          exact List.pairwise_map.2 (ho.imp fun hlt => .inr ⟨rfl, _, _, rfl, rfl, hlt⟩)
      · exact List.pairwise_singleton ..
    case across =>
      intro d e hlt l hl k hk
      left
      rwa [key_of_mem_leavesOf hl, key_of_mem_leavesOf hk]

/-- Places in front of a place come earlier, and places behind it later. -/
theorem cases_of_mem_leaves (ho : (Json.object fields).InOrder) {p : Place} {j : Json}
    {before after : List (Place × Json)} (hls : leaves fields = before ++ (p, j) :: after)
    {l : Place × Json} (hl : l ∈ leaves fields) :
    l ∈ before ∧ l.1.Before p ∨ l = (p, j) ∨ l ∈ after ∧ p.Before l.1 := by
  have hsorted := pairwise_leaves ho
  rw [hls] at hsorted hl
  obtain ⟨-, hbehind, hacross⟩ := List.pairwise_append.1 hsorted
  rcases List.mem_append.1 hl with hl | hl
  · exact .inl ⟨hl, hacross l hl (p, j) List.mem_cons_self⟩
  · rcases List.mem_cons.1 hl with rfl | hl
    · exact .inr (.inl rfl)
    · exact .inr (.inr ⟨hl, List.rel_of_pairwise_cons hbehind hl⟩)

def register (m : LibraryMap) (p : Place) (address : String) : LibraryMap :=
  match p.library with
  | none => addFlat p.key address m
  | some name => (m.insert name address).insert (qualify p.key name) address

def addLeaves (m : LibraryMap) : List (Place × Json) → Except NormalizationError LibraryMap
  | [] => .ok m
  | (p, .string address) :: rest => addLeaves (m.register p address) rest
  | (p, _) :: _ => .error (.invalidLibraryMapping p.identifier)

section

variable {ls rest before after : List (Place × Json)} {p : Place} {j : Json}

theorem addLeaves_cons_of_not (h : ¬ IsAddress j) :
    addLeaves m ((p, j) :: rest) = .error (.invalidLibraryMapping p.identifier) := by
  cases j with
  | string address => exact absurd ⟨address, rfl⟩ h
  | _ => rfl

theorem addLeaves_append (m : LibraryMap) (ls rest : List (Place × Json)) :
    addLeaves m (ls ++ rest) = addLeaves m ls >>= fun m => addLeaves m rest := by
  induction ls generalizing m with
  | nil => rfl
  | cons l ls ih =>
    obtain ⟨p, j⟩ := l
    cases j with
    | string address => exact ih (m.register p address)
    | _ => rfl

theorem addFile_eq (file : String) (m : LibraryMap) (libraries : Entries Json) :
    addFile file m libraries =
      addLeaves m (libraries.map fun l => (⟨file, some l.1⟩, l.2)) := by
  induction libraries generalizing m with
  | nil => rfl
  | cons l libraries ih =>
    obtain ⟨name, j⟩ := l
    cases j with
    | string address => exact ih _
    | _ => rfl

/-- The two nested loops are one loop over the places. -/
theorem addEntries_eq (m : LibraryMap) (fields : Entries Json) :
    addEntries m fields = addLeaves m (leaves fields) := by
  induction fields generalizing m with
  | nil => rfl
  | cons e fields ih =>
    obtain ⟨key, j⟩ := e
    rw [leaves, List.flatMap_cons, addLeaves_append, ← leaves]
    cases j with
    | string address => exact ih _
    | object libraries =>
      rw [addEntries, addFile_eq]
      exact congrArg _ (funext ih)
    | _ => rfl

theorem exists_addLeaves_iff (m : LibraryMap) (ls : List (Place × Json)) :
    (∃ m', addLeaves m ls = .ok m') ↔ ∀ l ∈ ls, IsAddress l.2 := by
  induction ls generalizing m with
  | nil => simp [addLeaves]
  | cons l ls ih =>
    obtain ⟨p, j⟩ := l
    by_cases hj : IsAddress j
    · obtain ⟨address, rfl⟩ := hj
      simp [addLeaves, ih, IsAddress]
    · simp [addLeaves_cons_of_not hj, hj]

/-- The loop stops at the first place without an address, and names it. -/
theorem addLeaves_eq_error (m : LibraryMap) (hbefore : ∀ l ∈ before, IsAddress l.2)
    (hj : ¬ IsAddress j) :
    addLeaves m (before ++ (p, j) :: after) = .error (.invalidLibraryMapping p.identifier) := by
  obtain ⟨m', hm'⟩ := (exists_addLeaves_iff m before).2 hbefore
  rw [addLeaves_append, hm']
  exact addLeaves_cons_of_not hj

theorem exists_split_of_addLeaves {error : NormalizationError} (h : addLeaves m ls = .error error) :
    ∃ before p j after, ls = before ++ (p, j) :: after ∧ (∀ l ∈ before, IsAddress l.2) ∧
      ¬ IsAddress j ∧ error = .invalidLibraryMapping p.identifier := by
  induction ls generalizing m with
  | nil => contradiction
  | cons l ls ih =>
    obtain ⟨p, j⟩ := l
    by_cases hj : IsAddress j
    · obtain ⟨address, rfl⟩ := hj
      obtain ⟨before, q, k, after, rfl, hbefore, hk, herror⟩ := ih h
      exact ⟨_ :: before, q, k, after, rfl,
        List.forall_mem_cons.2 ⟨⟨address, rfl⟩, hbefore⟩, hk, herror⟩
    · rw [addLeaves_cons_of_not hj] at h
      exact ⟨[], p, j, ls, rfl, nofun, hj, (Except.error.inj h).symm⟩

theorem get?_insert (m : LibraryMap) (name address x : String) :
    (m.insert name address).get? x = if x = name then some address else m.get? x :=
  Dict.get?_insert ..

/-- A place registers its address under all its names, and changes nothing else. -/
theorem get?_register [Decidable (p.Names x)] :
    (m.register p address).get? x = if p.Names x then some address else m.get? x := by
  obtain ⟨key, _ | name⟩ := p
  · have hnames : Place.Names ⟨key, none⟩ x ↔ x = key ∨ bareName? key = some x :=
      or_congr_right bareName?_eq_some_iff.symm
    cases hbare : bareName? key with
    | none => simp [register, addFlat, hbare, get?_insert, hnames]
    | some name =>
      simp only [register, addFlat, hbare, get?_insert, hnames, Option.some.injEq]
      by_cases hkey : x = key <;> simp [hkey, eq_comm]
  · have hnames : Place.Names ⟨key, some name⟩ x ↔ x = qualify key name ∨ x = name := Iff.rfl
    simp only [register, get?_insert, hnames]
    by_cases hkey : x = qualify key name <;> simp [hkey]

/-- What a name stands for when the loop ends: the address of the last place that has this name, or
what it stood for before if there is no such place. -/
theorem get?_addLeaves (h : addLeaves m ls = .ok m') (x : String) :
    (∃ before p address after, ls = before ++ (p, .string address) :: after ∧ p.Names x ∧
        (∀ l ∈ after, ¬ l.1.Names x) ∧ m'.get? x = some address) ∨
      (∀ l ∈ ls, ¬ l.1.Names x) ∧ m'.get? x = m.get? x := by
  classical
  induction ls generalizing m with
  | nil =>
    obtain rfl := Except.ok.inj h
    exact .inr ⟨nofun, rfl⟩
  | cons l ls ih =>
    obtain ⟨p, j⟩ := l
    by_cases hj : IsAddress j
    · obtain ⟨address, rfl⟩ := hj
      rcases ih h with ⟨before, q, a, after, rfl, hlast⟩ | ⟨hnone, hget⟩
      · exact .inl ⟨_ :: before, q, a, after, rfl, hlast⟩
      · rw [get?_register] at hget
        split at hget
        · next hnames => exact .inl ⟨[], p, address, ls, rfl, hnames, hnone, hget⟩
        · next hnot => exact .inr ⟨List.forall_mem_cons.2 ⟨hnot, hnone⟩, hget⟩
    · rw [addLeaves_cons_of_not hj] at h
      contradiction

end

end LibraryMap

end SolidityHost
