import SolidityHost.Host.Table
import Mathlib.Data.List.DropRight
import Mathlib.Data.List.Induction

/-!
# Slots of a function table

What each operation on a table does to a slot, seen through the function that is ready in the slot
and through the function that runs out of it, and how many functions there are in all.
-/

set_option autoImplicit false

namespace SolidityHost

def TableSlot.running? {F : Type} : TableSlot F → Option F
  | .running f => some f
  | _ => none

def TableSlot.function? {F : Type} : TableSlot F → Option F
  | .empty => none
  | .idle f => some f
  | .running f => some f

namespace Table

variable {F : Type} {t : Table F} {i : Nat} {f : F}

def running? (t : Table F) (i : Nat) : Option F := (t[i]?).bind TableSlot.running?

theorem idle?_eq_some_iff : t.idle? i = some f ↔ t[i]? = some (.idle f) := by
  rw [idle?, Option.bind_eq_some_iff]
  constructor
  · rintro ⟨x, hx, hf⟩
    cases x <;> simp_all [TableSlot.idle?]
  · exact fun h => ⟨_, h, rfl⟩

theorem lt_of_idle? (h : t.idle? i = some f) : i < t.length :=
  (List.getElem?_eq_some_iff.1 (idle?_eq_some_iff.1 h)).1

theorem running?_of_idle? (h : t.idle? i = some f) : t.running? i = none := by
  rw [running?, idle?_eq_some_iff.1 h]
  rfl

section

-- a view is what may be read off a slot; an empty slot shows nothing

variable {view : TableSlot F → Option F} (t : Table F)

theorem bind_set (i j : Nat) (x : TableSlot F) :
    ((t.set i x)[j]?).bind view =
      if j = i then (if i < t.length then view x else none) else (t[j]?).bind view := by
  rw [List.getElem?_set]
  by_cases hj : i = j
  · subst hj
    by_cases hi : i < t.length <;> simp [hi]
  · simp [hj, Ne.symm hj]

theorem bind_append_replicate (hview : view .empty = none) (n j : Nat) :
    ((t ++ List.replicate n TableSlot.empty)[j]?).bind view = (t[j]?).bind view := by
  rw [List.getElem?_append]
  split
  · rfl
  · next hj =>
    rw [List.getElem?_eq_none (Nat.not_lt.1 hj), List.getElem?_replicate]
    split <;> simp [hview]

theorem bind_restore (hview : view .empty = none) (i j : Nat) (f : F) :
    ((t.restore i f)[j]?).bind view = if j = i then view (.idle f) else (t[j]?).bind view := by
  have hi : i < (t ++ List.replicate (i + 1 - t.length) TableSlot.empty).length := by
    rw [List.length_append, List.length_replicate]
    omega
  rw [restore, bind_set, if_pos hi, bind_append_replicate t hview]

theorem bind_add (j : Nat) (f : F) :
    ((t.add f)[j]?).bind view = if j = t.length then view (.idle f) else (t[j]?).bind view := by
  rw [add, List.getElem?_append]
  by_cases hj : j = t.length
  · simp [hj]
  · by_cases hlt : j < t.length
    · simp [hj, hlt]
    · have hpos : j - t.length ≠ 0 := by omega
      simp [hj, hlt, hpos]

end

section

variable (t i f)

@[simp] theorem idle?_add (j : Nat) :
    (t.add f).idle? j = if j = t.length then some f else t.idle? j := bind_add t j f

@[simp] theorem idle?_restore (j : Nat) :
    (t.restore i f).idle? j = if j = i then some f else t.idle? j := bind_restore t rfl i j f

@[simp] theorem idle?_checkOut (j : Nat) :
    (t.checkOut i f).idle? j = if j = i then none else t.idle? j :=
  (bind_set t i j _).trans (by simp [TableSlot.idle?, idle?])

@[simp] theorem idle?_clear (j : Nat) :
    (t.clear i).idle? j = if j = i then none else t.idle? j :=
  (bind_set t i j _).trans (by simp [TableSlot.idle?, idle?])

@[simp] theorem idle?_shrink (j : Nat) : t.shrink.idle? j = t.idle? j := by
  induction t using List.reverseRecOn with
  | nil => rfl
  | append_singleton t x ih =>
    rw [shrink, List.reverse_concat, List.dropWhile_cons]
    by_cases hx : x.idle?.isNone
    · rw [if_pos hx]
      have hlast : x.idle? = none := Option.isNone_iff_eq_none.1 hx
      refine (show _ = Table.idle? t j from ih).trans ?_
      rw [idle?, idle?, List.getElem?_append]
      by_cases hj : j < t.length
      · rw [if_pos hj]
      · rw [if_neg hj, List.getElem?_eq_none (Nat.not_lt.1 hj), List.getElem?_singleton]
        split <;> simp [hlast]
    · rw [if_neg hx, List.reverse_cons, List.reverse_reverse]

end

section

variable (t i f)

@[simp] theorem running?_add (j : Nat) : (t.add f).running? j = t.running? j := by
  refine (bind_add t j f).trans ?_
  by_cases hj : j = t.length
  · simp [hj, running?, TableSlot.running?]
  · rw [if_neg hj, running?]

@[simp] theorem running?_restore (j : Nat) :
    (t.restore i f).running? j = if j = i then none else t.running? j := bind_restore t rfl i j f

@[simp] theorem running?_clear (j : Nat) :
    (t.clear i).running? j = if j = i then none else t.running? j :=
  (bind_set t i j _).trans (by simp [TableSlot.running?, running?])

theorem running?_checkOut (hi : i < t.length) (j : Nat) :
    (t.checkOut i f).running? j = if j = i then some f else t.running? j :=
  (bind_set t i j _).trans (by simp [hi, TableSlot.running?, running?])

end

theorem restore_of_lt (hi : i < t.length) (f : F) : t.restore i f = t.set i (.idle f) := by
  have hpad : i + 1 - t.length = 0 := by omega
  simp [restore, hpad]

theorem restore_checkOut (h : t.idle? i = some f) : (t.checkOut i f).restore i f = t := by
  obtain ⟨hi, hf⟩ := List.getElem?_eq_some_iff.1 (idle?_eq_some_iff.1 h)
  have hlt : i < (t.checkOut i f).length := by simpa [checkOut] using hi
  rw [restore_of_lt hlt, checkOut, List.set_set, ← hf, List.set_getElem_self]

theorem idle?_of_checkOut {j : Nat} {g : F} (h : (t.checkOut i f).idle? j = some g) :
    t.idle? j = some g := by
  rw [idle?_checkOut] at h
  split at h
  · contradiction
  · exact h

def function? (t : Table F) (i : Nat) : Option F := (t[i]?).bind TableSlot.function?

def live (t : Table F) : Nat := t.countP (·.function?.isSome)

theorem function?_of_idle? (hf : t.idle? i = some f) : t.function? i = some f := by
  rw [function?, idle?_eq_some_iff.1 hf]
  rfl

theorem function?_of_running (hf : t[i]? = some (.running f)) : t.function? i = some f := by
  rw [function?, hf]
  rfl

theorem lt_of_function? (hf : t.function? i = some f) : i < t.length := by
  obtain ⟨x, hx, -⟩ := Option.bind_eq_some_iff.1 hf
  exact (List.getElem?_eq_some_iff.1 hx).1

theorem function?_add (hi : i < t.length) (g : F) : (t.add g).function? i = t.function? i :=
  (bind_add t i g).trans (if_neg (Nat.ne_of_lt hi))

theorem function?_set_ne {j : Nat} (x : TableSlot F) (hj : i ≠ j) :
    Table.function? (t.set j x) i = t.function? i :=
  (bind_set t j i x).trans (if_neg hj)

theorem live_add (t : Table F) (f : F) : (t.add f).live = t.live + 1 := by
  rw [live, add, List.countP_append]
  rfl

theorem live_pos (hf : t.function? i = some f) : 0 < t.live := by
  obtain ⟨x, hx, hxf⟩ := Option.bind_eq_some_iff.1 hf
  exact List.countP_pos_iff.2 ⟨x, List.mem_of_getElem? hx, by rw [hxf]; rfl⟩

theorem live_set {x : TableSlot F} (hf : t.function? i = some f) :
    Table.live (t.set i x) + 1 = t.live + if x.function?.isSome then 1 else 0 := by
  have hpos := live_pos hf
  obtain ⟨y, hy, hyf⟩ := Option.bind_eq_some_iff.1 hf
  obtain ⟨hi, rfl⟩ := List.getElem?_eq_some_iff.1 hy
  have hsome : (t[i].function?.isSome) = true := by rw [hyf]; rfl
  unfold live at hpos ⊢
  rw [List.countP_set hi, if_pos hsome]
  omega

theorem live_clear (hf : t.function? i = some f) : (t.clear i).live + 1 = t.live := live_set hf

theorem live_exchange {x : TableSlot F} (hf : t.function? i = some f) (hx : x.function?.isSome) :
    Table.live (t.set i x) = t.live := by
  have hlive := live_set (x := x) hf
  rw [if_pos hx] at hlive
  exact Nat.succ.inj hlive

def Tight (t : Table F) : Prop := t.getLast? ≠ some .empty

/-- The table does not end in an empty slot, and no function runs. -/
structure Settled (t : Table F) : Prop where
  tight : t.Tight
  running?_eq : ∀ i, t.running? i = none

theorem tight_concat (t : Table F) {x : TableSlot F} (hx : x ≠ .empty) :
    Tight (t ++ [x] : List (TableSlot F)) := by
  rw [Tight, List.getLast?_concat]
  exact fun h => hx (Option.some.inj h)

theorem Tight.set (h : t.Tight) {x : TableSlot F} (hx : x ≠ .empty) (i : Nat) :
    Tight (t.set i x) := by
  rw [Tight, List.getLast?_eq_getElem?, List.length_set, List.getElem?_set]
  split
  · split
    · exact fun heq => hx (Option.some.inj heq)
    · exact nofun
  · rw [← List.getLast?_eq_getElem?]
    exact h

theorem Tight.restore (h : t.Tight) (i : Nat) (f : F) : (t.restore i f).Tight := by
  by_cases hi : i < t.length
  · rw [restore_of_lt hi]
    exact h.set (x := .idle f) nofun i
  · have hlen : (t ++ List.replicate (i + 1 - t.length) TableSlot.empty).length = i + 1 := by
      rw [List.length_append, List.length_replicate]
      omega
    rw [Tight, Table.restore, List.getLast?_eq_getElem?, List.length_set, hlen,
      Nat.add_sub_cancel, List.getElem?_set_self (by omega)]
    exact nofun

theorem shrink_eq_rdropWhile (t : Table F) :
    t.shrink = List.rdropWhile (fun s : TableSlot F => s.idle?.isNone) t := rfl

theorem shrink_concat {x : TableSlot F} (hx : x.idle? = none) (t : Table F) :
    shrink (t ++ [x] : List (TableSlot F)) = t.shrink :=
  List.rdropWhile_concat_pos _ _ _ (by rw [hx]; rfl)

theorem tight_shrink (t : Table F) : t.shrink.Tight := by
  rw [shrink_eq_rdropWhile]
  intro hlast
  have hne : List.rdropWhile (fun s : TableSlot F => s.idle?.isNone) t ≠ [] := by
    intro hnil
    rw [hnil] at hlast
    contradiction
  have hempty := Option.some.inj ((List.getLast?_eq_some_getLast hne).symm.trans hlast)
  have hready := List.rdropWhile_last_not _ t hne
  rw [hempty] at hready
  exact hready rfl

theorem running?_of_shrink (h : (t.shrink.running? i).isSome) : (t.running? i).isSome := by
  obtain ⟨rest, hrest⟩ : t.shrink <+: t := List.rdropWhile_prefix ..
  obtain ⟨f, hf⟩ := Option.isSome_iff_exists.1 h
  obtain ⟨x, hx, hxf⟩ := Option.bind_eq_some_iff.1 hf
  have hslot : t[i]? = some x := by
    rw [← hrest, List.getElem?_append_left (List.getElem?_eq_some_iff.1 hx).1, hx]
  rw [running?, hslot, Option.bind_some, hxf]
  rfl

theorem Settled.shrink_eq (h : t.Settled) : t.shrink = t := by
  refine List.rdropWhile_eq_self_iff.2 fun hne hready => ?_
  have hlast := List.getLast?_eq_some_getLast hne
  cases hx : t.getLast hne with
  | empty => exact h.tight (hx ▸ hlast)
  | idle f =>
    rw [hx] at hready
    contradiction
  | running f =>
    have hrun := h.running?_eq (t.length - 1)
    rw [running?, ← List.getLast?_eq_getElem?, hlast, hx] at hrun
    contradiction

/-- What was put at the end of a settled table can be taken away without a trace. -/
theorem Settled.shrink_clear_add (h : t.Settled) (f : F) :
    ((t.add f).clear t.length).shrink = t := by
  have hclear : (t.add f).clear t.length = t ++ [.empty] := by simp [add, clear]
  rw [hclear, shrink_concat rfl, h.shrink_eq]

/-- Every function stays in its slot unless it is ready and gets released, and a slot that was
emptied stays empty. -/
def Keeps (t u : Table F) : Prop :=
  ∀ (i : Nat) (x : TableSlot F),
    t[i]? = some x → u[i]? = some x ∨ (x.idle?.isSome ∧ u[i]? = some TableSlot.empty)

namespace Keeps

variable {u v : Table F}

theorem refl (t : Table F) : t.Keeps t := fun _ _ hx => .inl hx

theorem trans (h : t.Keeps u) (h' : u.Keeps v) : t.Keeps v := by
  intro i x hx
  rcases h i x hx with hu | ⟨hidle, hu⟩
  · exact h' i x hu
  · rcases h' i .empty hu with hv | ⟨hempty, -⟩
    · exact .inr ⟨hidle, hv⟩
    · simp [TableSlot.idle?] at hempty

theorem add (t : Table F) (f : F) : t.Keeps (t.add f) := by
  intro i x hx
  obtain ⟨hi, -⟩ := List.getElem?_eq_some_iff.1 hx
  exact .inl ((List.getElem?_append_left hi).trans hx)

theorem clear (hf : t.idle? i = some f) : t.Keeps (t.clear i) := by
  intro j x hx
  rw [Table.clear]
  by_cases hj : i = j
  · subst hj
    obtain rfl := Option.some.inj (hx.symm.trans (idle?_eq_some_iff.1 hf))
    exact .inr ⟨rfl, List.getElem?_set_self (lt_of_idle? hf)⟩
  · exact .inl ((List.getElem?_set_ne hj).trans hx)

theorem getElem?_of_checkOut (hf : t.idle? i = some f) (h : (t.checkOut i f).Keeps u) :
    u[i]? = some (.running f) := by
  rcases h i _ (List.getElem?_set_self (lt_of_idle? hf)) with hu | ⟨hidle, -⟩
  · exact hu
  · simp [TableSlot.idle?] at hidle

theorem restore (hf : t.idle? i = some f) (h : (t.checkOut i f).Keeps u) :
    t.Keeps (u.restore i f) := by
  obtain ⟨hlt, -⟩ := List.getElem?_eq_some_iff.1 (getElem?_of_checkOut hf h)
  rw [restore_of_lt hlt]
  intro j x hx
  by_cases hj : i = j
  · subst hj
    obtain rfl := Option.some.inj (hx.symm.trans (idle?_eq_some_iff.1 hf))
    exact .inl (List.getElem?_set_self hlt)
  · have hin : (t.checkOut i f)[j]? = some x := (List.getElem?_set_ne hj).trans hx
    rw [List.getElem?_set_ne hj]
    exact h j x hin

end Keeps

end Table

end SolidityHost
