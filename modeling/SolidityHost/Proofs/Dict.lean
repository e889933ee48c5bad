import SolidityHost.Dict

/-!
# Entries of dictionaries

What a dictionary answers is one of its entries, and for each key that it lists it has an answer.
An insertion brings one entry; what holds of all values and of the new one still holds of all.
-/

set_option autoImplicit false

namespace SolidityHost

variable {α : Type} {k : String} {v : α}

namespace Entries

variable {es : Entries α}

theorem get?_cons (e : String × α) (es : Entries α) (q : String) :
    Entries.get? (e :: es) q = if q = e.1 then some e.2 else es.get? q := by
  obtain ⟨k, v⟩ := e
  by_cases h : q = k <;> simp [get?, List.lookup_cons, h, beq_eq_false_iff_ne.2]

theorem mem_of_get? (h : es.get? k = some v) : (k, v) ∈ es := by
  induction es with
  | nil => contradiction
  | cons e rest ih =>
    rw [get?_cons] at h
    split at h
    case isTrue hk => simp [hk, ← Option.some.inj h]
    case isFalse => exact List.mem_cons_of_mem _ (ih h)

theorem get?_of_mem (ho : es.Ordered) (h : (k, v) ∈ es) : es.get? k = some v := by
  induction es with
  | nil => contradiction
  | cons e rest ih =>
    obtain ⟨hfirst, hrest⟩ := List.pairwise_cons.1 ho
    rw [get?_cons]
    rcases List.mem_cons.1 h with rfl | h
    · rw [if_pos rfl]
    · have hne : k ≠ e.1 := fun heq => String.lt_irrefl _ (heq ▸ hfirst (k, v) h)
      rw [if_neg hne, ih hrest h]

theorem exists_get?_of_mem_keys (h : k ∈ es.map (·.1)) : ∃ v, es.get? k = some v := by
  induction es with
  | nil => contradiction
  | cons e rest ih =>
    rw [get?_cons]
    split
    case isTrue => exact ⟨e.2, rfl⟩
    case isFalse hk => exact ih ((List.mem_cons.1 h).resolve_left hk)

theorem mem_insert_of_new (v : α) (hnew : ∀ e ∈ es, e.1 ≠ k) (e : String × α) :
    e ∈ es.insert k v ↔ e = (k, v) ∨ e ∈ es := by
  induction es with
  | nil => simp [Entries.insert]
  | cons d rest ih =>
    obtain ⟨hd, hrest⟩ := List.forall_mem_cons.1 hnew
    rw [Entries.insert]
    split
    · simp
    · rw [if_neg (Ne.symm hd), List.mem_cons, ih hrest, List.mem_cons]
      exact or_left_comm

theorem insert_insert_self (es : Entries α) (k : String) (v : α) :
    (es.insert k v).insert k v = es.insert k v := by
  induction es with
  | nil => simp [Entries.insert]
  | cons e rest ih =>
    rw [Entries.insert]
    split
    case isTrue => simp [Entries.insert]
    case isFalse hlt =>
      split
      case isTrue => simp [Entries.insert]
      case isFalse hne => rw [Entries.insert, if_neg hlt, if_neg hne, ih]

/-- An entry that is there stays in its place when one with a larger key is put in. -/
theorem insert_insert_of_lt {l : String} (h : es.insert k v = es) (hlt : k < l) (w : α) :
    (es.insert l w).insert k v = es.insert l w := by
  induction es with
  | nil => simp [Entries.insert] at h
  | cons e rest ih =>
    rw [Entries.insert] at h
    split at h
    case isTrue => simpa using congrArg List.length h
    case isFalse hnlt =>
      have hl : ¬ l < e.1 := fun hle => hnlt (String.lt_trans hlt hle)
      split at h
      case isTrue heq =>
        have hne : l ≠ e.1 := fun hle => String.lt_irrefl _ (hle ▸ heq ▸ hlt)
        rw [Entries.insert, if_neg hl, if_neg hne, Entries.insert, if_neg hnlt, if_pos heq]
        rw [(List.cons.inj h).1]
      case isFalse hne =>
        have hle : l ≠ e.1 := fun hle => hnlt (hle ▸ hlt)
        rw [Entries.insert, if_neg hl, if_neg hle, Entries.insert, if_neg hnlt, if_neg hne,
          ih (List.cons.inj h).2]

theorem filter_insert {p : String → Bool} (hp : p k = false) (es : Entries α) (v : α) :
    (es.insert k v).filter (fun e => p e.1) = es.filter fun e => p e.1 := by
  induction es with
  | nil => simp [Entries.insert, hp]
  | cons e rest ih =>
    rw [Entries.insert]
    split
    case isTrue => rw [List.filter_cons, if_neg (by simp [hp])]
    case isFalse =>
      split
      case isTrue heq => simp [hp, ← heq]
      case isFalse => rw [List.filter_cons, List.filter_cons, ih]

theorem ordered_iff : es.Ordered ↔ (es.map (·.1)).Pairwise (· < ·) := by
  rw [Ordered, List.pairwise_map]

theorem get?_eq_none_of_notMem (h : k ∉ es.map (·.1)) : es.get? k = none := by
  cases hv : es.get? k with
  | none => rfl
  | some v => exact absurd (List.mem_map_of_mem (mem_of_get? hv)) h

theorem get?_map {β : Type} (f : α → β) (es : Entries α) (q : String) :
    Entries.get? (es.map fun e => (e.1, f e.2)) q = (es.get? q).map f := by
  induction es with
  | nil => rfl
  | cons e es ih =>
    rw [List.map_cons, get?_cons, get?_cons, ih]
    split <;> rfl

/-- If no key occurs twice, the order in which entries are put in does not matter. -/
theorem get?_foldl_insert (es : Entries α) {pairs : Entries α} (hp : (pairs.map (·.1)).Nodup)
    (q : String) : (pairs.foldl (fun es p => Entries.insert p.1 p.2 es) es).get? q =
      (pairs.get? q).or (es.get? q) := by
  induction pairs generalizing es with
  | nil => rfl
  | cons p pairs ih =>
    obtain ⟨hnew, hpairs⟩ := List.nodup_cons.1 hp
    rw [List.foldl_cons, ih _ hpairs, get?_insert, get?_cons]
    split
    case isTrue hq => rw [hq, get?_eq_none_of_notMem hnew, Option.none_or, Option.some_or]
    case isFalse => rfl

theorem mem_foldl_insert {pairs : Entries α} {e : String × α}
    (h : e ∈ pairs.foldl (fun es p => Entries.insert p.1 p.2 es) es) : e ∈ es ∨ e ∈ pairs := by
  induction pairs generalizing es with
  | nil => exact .inl h
  | cons p pairs ih =>
    rcases ih h with he | he
    · rcases mem_insert he with rfl | he
      · exact .inr List.mem_cons_self
      · exact .inl he
    · exact .inr (List.mem_cons_of_mem _ he)

theorem mem_ofList {pairs : Entries α} {e : String × α} (h : e ∈ ofList pairs) : e ∈ pairs :=
  (mem_foldl_insert h).resolve_left nofun

theorem get?_ofList {pairs : Entries α} (hp : (pairs.map (·.1)).Nodup) (q : String) :
    (ofList pairs).get? q = pairs.get? q := by
  rw [ofList, get?_foldl_insert [] hp]
  exact Option.or_none

theorem Ordered.map {β : Type} (h : es.Ordered) (f : α → β) :
    Ordered (es.map fun e => (e.1, f e.2)) := by
  rw [ordered_iff] at h ⊢
  rwa [List.map_map]

theorem insert_of_forall_lt (v : α) (h : ∀ e ∈ es, e.1 < k) :
    Entries.insert k v es = es ++ [(k, v)] := by
  induction es with
  | nil => rfl
  | cons e rest ih =>
    obtain ⟨he, hrest⟩ := List.forall_mem_cons.1 h
    have hne : k ≠ e.1 := by
      rintro rfl
      exact String.lt_irrefl _ he
    rw [Entries.insert, if_neg fun hlt => String.lt_irrefl _ (String.lt_trans he hlt), if_neg hne,
      ih hrest, List.cons_append]

theorem foldl_insert_of_ordered {pairs : Entries α} (h : Ordered (es ++ pairs)) :
    pairs.foldl (fun es p => Entries.insert p.1 p.2 es) es = es ++ pairs := by
  induction pairs generalizing es with
  | nil => rw [List.append_nil, List.foldl_nil]
  | cons p rest ih =>
    have hlast : ∀ e ∈ es, e.1 < p.1 :=
      fun e he => (List.pairwise_append.1 h).2.2 e he p List.mem_cons_self
    rw [List.append_cons] at h
    rw [List.foldl_cons, insert_of_forall_lt _ hlast, ih h, List.append_assoc,
      List.singleton_append]

theorem ofList_of_ordered (h : es.Ordered) : ofList es = es := foldl_insert_of_ordered h

end Entries

namespace Dict

variable {d : Dict α} {P : α → Prop}

theorem entries_ofList (pairs : List (String × α)) :
    (ofList pairs).entries = Entries.ofList pairs := by
  have hfold (d : Dict α) : (pairs.foldl (fun d p => d.insert p.1 p.2) d).entries =
      pairs.foldl (fun es p => Entries.insert p.1 p.2 es) d.entries := by
    induction pairs generalizing d with
    | nil => rfl
    | cons p pairs ih => exact ih _
  exact hfold empty

theorem mem_keys_iff : k ∈ d.keys ↔ ∃ v, d.get? k = some v :=
  ⟨Entries.exists_get?_of_mem_keys, fun ⟨_, hv⟩ => List.mem_map_of_mem (Entries.mem_of_get? hv)⟩

theorem mem_entries_iff : (k, v) ∈ d.entries ↔ d.get? k = some v :=
  ⟨Entries.get?_of_mem d.ordered, Entries.mem_of_get?⟩

theorem nodup_keys (d : Dict α) : d.keys.Nodup := by
  refine (Entries.ordered_iff.1 d.ordered).imp fun hlt heq => ?_
  exact String.lt_irrefl _ (heq ▸ hlt)

theorem mem_keys_insert (d : Dict α) (k q : String) (v : α) :
    q ∈ (d.insert k v).keys ↔ q = k ∨ q ∈ d.keys := by
  rw [mem_keys_iff, mem_keys_iff, get?_insert]
  by_cases hq : q = k <;> simp [hq]

theorem mem_keys_ofList (pairs : List (String × α)) (q : String) :
    q ∈ (ofList pairs).keys ↔ q ∈ pairs.map (·.1) := by
  have hfold (d : Dict α) : q ∈ (pairs.foldl (fun d p => d.insert p.1 p.2) d).keys ↔
      q ∈ d.keys ∨ q ∈ pairs.map (·.1) := by
    induction pairs generalizing d with
    | nil => simp
    | cons p pairs ih =>
      rw [List.foldl_cons, ih, mem_keys_insert, List.map_cons, List.mem_cons, or_assoc,
        or_left_comm]
  exact (hfold empty).trans (or_iff_right List.not_mem_nil)

theorem size_ofList {pairs : List (String × α)} (hp : (pairs.map (·.1)).Nodup) :
    (ofList pairs).size = pairs.length := by
  have hkeys : (ofList pairs).keys.Perm (pairs.map (·.1)) :=
    (List.perm_ext_iff_of_nodup (nodup_keys _) hp).2 (mem_keys_ofList pairs)
  simpa [keys, size] using hkeys.length_eq

theorem ofList_entries (d : Dict α) : ofList d.entries = d :=
  Dict.ext ((entries_ofList _).trans (Entries.ofList_of_ordered d.ordered))

def All (P : α → Prop) (d : Dict α) : Prop := ∀ e ∈ d.entries, P e.2

namespace All

theorem empty (P : α → Prop) : Dict.empty.All P := nofun

theorem insert (h : d.All P) (hv : P v) : (d.insert k v).All P := by
  intro e he
  rcases Entries.mem_insert he with rfl | he
  · exact hv
  · exact h e he

theorem getD (h : d.All P) (hv : P v) : P ((d.get? k).getD v) := by
  cases hk : d.get? k with
  | none => exact hv
  | some w => exact h _ (Entries.mem_of_get? hk)

end All

def lookup (d : Dict (Dict α)) (k l : String) : Option α := (d.get? k).bind (·.get? l)

def paths (d : Dict (Dict α)) : List (String × String) :=
  d.entries.flatMap fun e => e.2.keys.map (e.1, ·)

theorem mem_paths_iff {d : Dict (Dict α)} {k l : String} :
    (k, l) ∈ d.paths ↔ ∃ v, d.lookup k l = some v := by
  constructor
  · intro h
    obtain ⟨⟨k', inner⟩, hinner, hmem⟩ := List.mem_flatMap.1 h
    obtain ⟨l', hl, heq⟩ := List.mem_map.1 hmem
    obtain ⟨rfl, rfl⟩ := Prod.mk.inj heq
    obtain ⟨v, hv⟩ := mem_keys_iff.1 hl
    exact ⟨v, by rw [lookup, mem_entries_iff.1 hinner, Option.bind_some, hv]⟩
  · rintro ⟨v, hv⟩
    obtain ⟨inner, hinner, hv⟩ := Option.bind_eq_some_iff.1 hv
    exact List.mem_flatMap.2 ⟨(k, inner), mem_entries_iff.2 hinner,
      List.mem_map.2 ⟨l, mem_keys_iff.2 ⟨v, hv⟩, rfl⟩⟩

theorem nodup_paths (d : Dict (Dict α)) : d.paths.Nodup := by
  refine List.pairwise_flatMap.2 ⟨fun e _ => ?within, d.ordered.imp ?across⟩
  case within =>
    exact List.pairwise_map.2 (e.2.nodup_keys.imp fun hne heq => hne (Prod.mk.inj heq).2)
  case across =>
    rintro e e' hlt p hp q hq rfl
    obtain ⟨l, -, rfl⟩ := List.mem_map.1 hp
    obtain ⟨l', -, heq⟩ := List.mem_map.1 hq
    exact String.lt_irrefl _ ((Prod.mk.inj heq).1 ▸ hlt)

theorem lookup_alter_insert (d : Dict (Dict α)) (k l q r : String) (v : α) :
    (d.alter k fun inner => (inner.getD Dict.empty).insert l v).lookup q r =
      if q = k ∧ r = l then some v else d.lookup q r := by
  rw [lookup, lookup, get?_alter]
  by_cases hq : q = k
  · subst hq
    rw [if_pos rfl, Option.bind_some, get?_insert]
    by_cases hr : r = l
    · simp [hr]
    · cases h : d.get? q <;> simp [hr]
  · simp [hq]

def map {β : Type} (f : α → β) (d : Dict α) : Dict β :=
  ⟨d.entries.map fun e => (e.1, f e.2), d.ordered.map f⟩

theorem map_eq_self_iff {f : α → α} : d.map f = d ↔ d.All fun v => f v = v := by
  have hentries : d.map f = d ↔ d.entries.map (fun e => (e.1, f e.2)) = d.entries.map id := by
    rw [List.map_id]
    exact ⟨congrArg entries, fun h => Dict.ext h⟩
  rw [hentries, List.map_inj_left]
  exact forall₂_congr fun e _ => ⟨fun h => (Prod.mk.inj h).2, fun h => Prod.ext rfl h⟩

end Dict

end SolidityHost
