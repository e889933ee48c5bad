import SolidityHost.Proofs.Simulated.CallTree

/-!
# Handles of a simulated module

The chronicle of a program lists its operations in the order in which they end, and the code of the
host in the order in which it begins, however deeply it is nested. Read that way, every step does
one thing to the slots: a function is registered in a new one, released, taken out of its slot to
run or put back there, or nothing happens. So an index is given out once, holds its function until
the function is released, and is of no use afterwards; and the counters differ by the functions that
are there.
-/

set_option autoImplicit false

namespace SolidityHost.Simulated

variable {C σ α : Type} {code : C → List Value → HostProgram C σ Value}
  {runner : Runner (HostFunction C σ) σ (Simulated C σ)}
  {m n k : Simulated C σ}

inductive Mark (C σ : Type) where
  | begins (o : Op (HostFunction C σ))
  | ends (o : Op (HostFunction C σ)) (result : Outcome o.Answer)

structure Step (C σ : Type) where
  stack : List Activation
  mark : Mark C σ
  after : Simulated C σ

def Step.within (x : Step C σ) (outer : List Activation) : Step C σ :=
  { x with stack := x.stack ++ outer }

def observeSteps (code : C → List Value → HostProgram C σ Value)
    (runner : Runner (HostFunction C σ) σ (Simulated C σ))
    (logger : Logger (HostFunction C σ) σ (Simulated C σ) (Step C σ)) :
    Observer (HostFunction C σ) σ (Simulated C σ) (Step C σ) := fun o s =>
  let last : Step C σ := ⟨[], .ends o (perform code runner o s).1, (perform code runner o s).2.1⟩
  match opened? code o s with
  | some (a, p, t) => ⟨[a], .begins o, t.1⟩ :: ((logger p t).map (·.within [a]) ++ [last])
  | none => [last]

def chronicle (code : C → List Value → HostProgram C σ Value) (depth : Nat) (p : HostProgram C σ α)
    (s : Simulated C σ × σ) : List (Step C σ) :=
  p.log (Meaning.nested (perform code) depth)
    (Observer.nested (perform code) (observeSteps code) depth) s

namespace Mark

variable (i : Nat)

def Registers (f : HostFunction C σ) : Mark C σ → Prop
  | .ends (.register g) r => g = f ∧ r = .ok i
  | _ => False

def Releases : Mark C σ → Prop
  | .ends (.release j) r => j = i ∧ r = .ok ()
  | _ => False

/-- Whoever calls or releases the function of slot `i` is told that there is none. -/
def Bars : Mark C σ → Prop
  | .begins (.invoke j _) => j ≠ i
  | .ends (.invoke j _) r => j = i → r = .error (.error (.slotNotFound i))
  | .ends (.release j) r => j = i → r = .error (.error (.slotNotFound i))
  | _ => True

def Still (t : Table (HostFunction C σ)) : Mark C σ → Prop
  | .begins (.invoke _ _) => False
  | .ends (.register _) r => ∃ failure, r = .error failure
  | .ends (.invoke j _) r => t.idle? j = none ∧ r = .error (.error (.slotNotFound j))
  | .ends (.release j) r => t.idle? j = none ∧ r = .error (.error (.slotNotFound j))
  | _ => True

end Mark

structure Slots (C σ : Type) where
  table : Table (HostFunction C σ)
  registered : Nat
  released : Nat

def slots (m : Simulated C σ) : Slots C σ := ⟨m.table, m.registered, m.released⟩

inductive Move : Slots C σ → Mark C σ → Slots C σ → Prop where
  | register (t : Table (HostFunction C σ)) (r d : Nat) (f : HostFunction C σ) :
    Move ⟨t, r, d⟩ (.ends (.register f) (.ok t.length)) ⟨t.add f, r + 1, d⟩
  | release {t : Table (HostFunction C σ)} {i : Nat} {f : HostFunction C σ}
      (hf : t.idle? i = some f) (r d : Nat) :
    Move ⟨t, r, d⟩ (.ends (.release i) (.ok ())) ⟨t.clear i, r, d + 1⟩
  | checkOut {t : Table (HostFunction C σ)} {i : Nat} {f : HostFunction C σ}
      (hf : t.idle? i = some f) (args : List Value) (r d : Nat) :
    Move ⟨t, r, d⟩ (.begins (.invoke i args)) ⟨t.checkOut i f, r, d⟩
  | restore {t : Table (HostFunction C σ)} {i : Nat} {f : HostFunction C σ}
      (hf : t[i]? = some (.running f)) (args : List Value) (result : Outcome Value) (r d : Nat) :
    Move ⟨t, r, d⟩ (.ends (.invoke i args) result) ⟨t.set i (.idle f), r, d⟩
  | still {s : Slots C σ} {x : Mark C σ} (hx : x.Still s.table) : Move s x s

namespace Move

variable {s u : Slots C σ} {x : Mark C σ} {i : Nat} {f : HostFunction C σ}

theorem length_le (h : Move s x u) : s.table.length ≤ u.table.length := by
  cases h with
  | register t r d f => simp [Table.add]
  | release hf r d => simp [Table.clear]
  | checkOut hf args r d => simp [Table.checkOut]
  | restore hf args result r d => simp
  | still hx => exact Nat.le_refl _

theorem of_registers (h : Move s x u) (hx : x.Registers i f) :
    i = s.table.length ∧ u.table[i]? = some (.idle f) := by
  cases h with
  | register t r d g =>
    obtain ⟨rfl, hi⟩ := hx
    obtain rfl := Except.ok.inj hi
    exact ⟨rfl, by simp [Table.add]⟩
  | release hf r d => exact hx.elim
  | checkOut hf args r d => exact hx.elim
  | restore hf args result r d => exact hx.elim
  | still hstill =>
    cases x with
    | begins o => exact hx.elim
    | ends o result =>
      cases o with
      | register g =>
        obtain ⟨failure, rfl⟩ := hstill
        obtain ⟨-, hi⟩ := hx
        contradiction
      | _ => exact hx.elim

theorem ne_of_empty {t : Table (HostFunction C σ)} {j : Nat} (hi : t[i]? = some .empty)
    (hf : t.function? j = some f) : i ≠ j := by
  rintro rfl
  rw [Table.function?, hi] at hf
  contradiction

theorem of_empty (h : Move s x u) (hi : s.table[i]? = some .empty) :
    u.table[i]? = some .empty ∧ x.Bars i := by
  cases h with
  | register t r d g =>
    have hlt := (List.getElem?_eq_some_iff.1 hi).1
    exact ⟨(List.getElem?_append_left hlt).trans hi, trivial⟩
  | release hf r d =>
    have hne := ne_of_empty hi (Table.function?_of_idle? hf)
    exact ⟨(List.getElem?_set_ne hne.symm).trans hi, fun heq => absurd heq.symm hne⟩
  | checkOut hf args r d =>
    have hne := ne_of_empty hi (Table.function?_of_idle? hf)
    exact ⟨(List.getElem?_set_ne hne.symm).trans hi, hne.symm⟩
  | restore hf args result r d =>
    have hne := ne_of_empty hi (Table.function?_of_running hf)
    exact ⟨(List.getElem?_set_ne hne.symm).trans hi, fun heq => absurd heq.symm hne⟩
  | still hstill =>
    refine ⟨hi, ?_⟩
    cases x with
    | begins o => cases o <;> first | exact hstill.elim | trivial
    | ends o result =>
      cases o with
      | invoke j args => exact fun hj => hj ▸ hstill.2
      | release j => exact fun hj => hj ▸ hstill.2
      | _ => trivial

theorem of_releases (h : Move s x u) (hx : x.Releases i) :
    i < s.table.length ∧ u.table[i]? = some .empty := by
  cases h with
  | register t r d g => exact hx.elim
  | release hf r d =>
    obtain ⟨rfl, -⟩ := hx
    have hlt := Table.lt_of_idle? hf
    exact ⟨hlt, List.getElem?_set_self hlt⟩
  | checkOut hf args r d => exact hx.elim
  | restore hf args result r d => exact hx.elim
  | still hstill =>
    cases x with
    | begins o => exact hx.elim
    | ends o result =>
      cases o with
      | release j => exact nomatch hx.2.symm.trans hstill.2
      | _ => exact hx.elim

theorem of_function? (h : Move s x u) (hi : s.table.function? i = some f) (hx : ¬ x.Releases i) :
    u.table.function? i = some f := by
  have hlt := Table.lt_of_function? hi
  cases h with
  | register t r d g => exact (Table.function?_add hlt g).trans hi
  | @release t j g hf r d =>
    have hj : i ≠ j := fun hj => hx ⟨hj.symm, rfl⟩
    exact (Table.function?_set_ne _ hj).trans hi
  | @checkOut t j g hf args r d =>
    by_cases hj : i = j
    · subst hj
      obtain rfl := Option.some.inj (hi.symm.trans (Table.function?_of_idle? hf))
      exact Table.function?_of_running (List.getElem?_set_self hlt)
    · exact (Table.function?_set_ne _ hj).trans hi
  | @restore t j g hf args result r d =>
    by_cases hj : i = j
    · subst hj
      obtain rfl := Option.some.inj (hi.symm.trans (Table.function?_of_running hf))
      exact Table.function?_of_idle? (Table.idle?_eq_some_iff.2 (List.getElem?_set_self hlt))
    · exact (Table.function?_set_ne _ hj).trans hi
  | still hstill => exact hi

theorem counted (h : Move s x u) (hs : s.registered = s.released + s.table.live) :
    u.registered = u.released + u.table.live := by
  cases h with
  | register t r d f =>
    rw [Table.live_add]
    exact congrArg (· + 1) hs
  | @release t i f hf r d =>
    have hlive := Table.live_clear (Table.function?_of_idle? hf)
    dsimp only at hs ⊢
    omega
  | checkOut hf args r d =>
    exact hs.trans (congrArg _ (Table.live_exchange (Table.function?_of_idle? hf) rfl).symm)
  | restore hf args result r d =>
    exact hs.trans (congrArg _ (Table.live_exchange (Table.function?_of_running hf) rfl).symm)
  | still hstill => exact hs

end Move

def Path : Slots C σ → List (Step C σ) → Slots C σ → Prop
  | s, [], u => u = s
  | s, x :: l, u => Move s x.mark x.after.slots ∧ Path x.after.slots l u

theorem path_append {s u : Slots C σ} {l l' : List (Step C σ)} :
    Path s (l ++ l') u ↔ ∃ v, Path s l v ∧ Path v l' u := by
  induction l generalizing s with
  | nil => exact ⟨fun h => ⟨s, rfl, h⟩, fun ⟨v, hv, h⟩ => hv ▸ h⟩
  | cons x l ih =>
    rw [List.cons_append, Path, ih]
    exact ⟨fun ⟨hx, v, hl, h⟩ => ⟨v, ⟨hx, hl⟩, h⟩, fun ⟨v, ⟨hx, hl⟩, h⟩ => ⟨hx, v, hl, h⟩⟩

theorem path_within {s u : Slots C σ} {l : List (Step C σ)} (outer : List Activation) :
    Path s (l.map (·.within outer)) u ↔ Path s l u := by
  induction l generalizing s with
  | nil => exact Iff.rfl
  | cons x l ih => exact and_congr_right fun _ => ih

theorem path_single {s : Slots C σ} {x : Step C σ} (h : Move s x.mark x.after.slots) :
    Path s [x] x.after.slots := ⟨h, rfl⟩

section

variable {s u v : Slots C σ} {x : Step C σ} {l l₁ l₂ : List (Step C σ)} {i : Nat}
  {f : HostFunction C σ}

theorem Path.split (h : Path s (l₁ ++ x :: l₂) u) :
    ∃ v, Path s l₁ v ∧ Move v x.mark x.after.slots ∧ Path x.after.slots l₂ u :=
  path_append.1 h

theorem Path.length_le (h : Path s l u) : s.table.length ≤ u.table.length := by
  induction l generalizing s with
  | nil => exact Nat.le_of_eq (congrArg (·.table.length) h.symm)
  | cons x l ih => exact Nat.le_trans h.1.length_le (ih h.2)

/-- What is registered along a path comes behind the table before it, and is in the one behind. -/
theorem Path.of_registers (h : Path s l u) (hx : x ∈ l) (hr : x.mark.Registers i f) :
    s.table.length ≤ i ∧ i < u.table.length := by
  obtain ⟨l₁, l₂, rfl⟩ := List.append_of_mem hx
  obtain ⟨v, hfront, hmove, hback⟩ := h.split
  obtain ⟨rfl, hidle⟩ := hmove.of_registers hr
  have hlt := (List.getElem?_eq_some_iff.1 hidle).1
  exact ⟨hfront.length_le, Nat.lt_of_lt_of_le hlt hback.length_le⟩

theorem Path.lt_of_releases (h : Path s l u) (hx : x ∈ l) (hr : x.mark.Releases i) :
    i < u.table.length := by
  obtain ⟨l₁, l₂, rfl⟩ := List.append_of_mem hx
  obtain ⟨v, -, hmove, hback⟩ := h.split
  exact Nat.lt_of_lt_of_le (hmove.of_releases hr).1 (Nat.le_trans hmove.length_le hback.length_le)

theorem Path.bars_of_empty (h : Path s l u) (hi : s.table[i]? = some .empty) :
    ∀ x ∈ l, x.mark.Bars i := by
  induction l generalizing s with
  | nil => exact fun _ hx => absurd hx List.not_mem_nil
  | cons x l ih =>
    obtain ⟨hempty, hbars⟩ := h.1.of_empty hi
    exact List.forall_mem_cons.2 ⟨hbars, ih h.2 hempty⟩

theorem Path.function?_eq (h : Path s l u) (hi : s.table.function? i = some f)
    (hl : ∀ x ∈ l, ¬ x.mark.Releases i) : u.table.function? i = some f := by
  induction l generalizing s with
  | nil => rwa [h]
  | cons x l ih =>
    obtain ⟨hx, hl⟩ := List.forall_mem_cons.1 hl
    exact ih h.2 (h.1.of_function? hi hx) hl

theorem Path.counted (h : Path s l u) (hs : s.registered = s.released + s.table.live) :
    ∀ x ∈ l, x.after.registered = x.after.released + x.after.table.live := by
  induction l generalizing s with
  | nil => exact fun _ hx => absurd hx List.not_mem_nil
  | cons x l ih =>
    have hx := h.1.counted hs
    exact List.forall_mem_cons.2 ⟨hx, ih h.2 hx⟩

end

section

variable {o : Op (HostFunction C σ)} {s t : Simulated C σ × σ} {a : Activation}
  {p : HostProgram C σ Value} {forbidden : String → Prop}

theorem Framed.slots_eq (h : m.Framed forbidden n) : n.slots = m.slots := by
  rw [slots, slots, h.table_eq, h.registered_eq, h.released_eq]

theorem move_of_opened?_eq_none (runner : Runner (HostFunction C σ) σ (Simulated C σ))
    (h : opened? code o s = none) :
    Move s.1.slots (.ends o (perform code runner o s).1) (perform code runner o s).2.1.slots := by
  cases o with
  | invoke slot args =>
    cases hf : s.1.table.idle? slot with
    | none =>
      rw [perform, Simulated.invoke, HostFunction.invoke, hf]
      exact .still ⟨hf, rfl⟩
    | some f => simp [opened?, hf] at h
  | register f =>
    show Move s.1.slots (.ends (.register f) (s.1.register f).1) (s.1.register f).2.slots
    unfold Simulated.register
    split
    · exact .register ..
    · exact .still ⟨_, rfl⟩
  | release slot =>
    show Move s.1.slots (.ends (.release slot) (s.1.release slot).1) (s.1.release slot).2.slots
    unfold Simulated.release
    split
    · next f hf => exact .release hf ..
    · next hf => exact .still ⟨hf, rfl⟩
  | _ =>
    -- what has to do with no function leaves the slots alone
    obtain h | ⟨f, ho, -⟩ | ⟨slot, f, ho, -⟩ := state_of_opened?_eq_none runner h
    · rw [← h.slots_eq]
      exact .still trivial
    · contradiction
    · contradiction

theorem moves_of_opened?_eq_some (runner : Runner (HostFunction C σ) σ (Simulated C σ))
    (h : opened? code o s = some (a, p, t)) :
    (∀ stack, s.1.Balanced stack → t.1.Balanced (a :: stack)) ∧
      Move s.1.slots (.begins o) t.1.slots ∧
        (t.1.table.Keeps (runner p t).2.1.table → ∀ r,
          Move (runner p t).2.1.slots (.ends o r) (perform code runner o s).2.1.slots) := by
  cases opens_of_opened? h with
  | @call symbol c he hrun args =>
    refine ⟨fun stack hb => hb.begin symbol, .still trivial, fun _ r => ?_⟩
    rw [state_call he hrun args]
    exact .still trivial
  | @invoke slot f hf args =>
    refine ⟨fun stack hb => hb.checkOut hf, .checkOut hf .., fun hk r => ?_⟩
    have hout := Table.Keeps.getElem?_of_checkOut hf hk
    rw [state_invoke hf args, Simulated.restore, slots,
      Table.restore_of_lt (List.getElem?_eq_some_iff.1 hout).1]
    exact .restore hout ..

end

/-- What part of a chronicle does: it is a path, and at each of its steps exactly the activations of
the step are active. -/
structure Chronicles (code : C → List Value → HostProgram C σ Value) (m : Simulated C σ)
    (l : List (Step C σ)) (n : Simulated C σ) : Prop where
  nests : Nests code m [] n
  path : Path m.slots l n.slots
  balanced : ∀ stack, m.Balanced stack → ∀ x ∈ l, x.after.Balanced (x.stack ++ stack)

namespace Chronicles

theorem sequential (code : C → List Value → HostProgram C σ Value) :
    Sequential (Chronicles code :
      Simulated C σ → List (Step C σ) → Simulated C σ → Prop) where
  nil m := ⟨(Nests.sequential code).nil m, rfl, fun _ _ _ hx => absurd hx List.not_mem_nil⟩
  append := by
    intro m n k l l' h h'
    refine ⟨(Nests.sequential code).append h.nests h'.nests,
      path_append.2 ⟨_, h.path, h'.path⟩, fun stack hb x hx => ?_⟩
    obtain hx | hx := List.mem_append.1 hx
    · exact h.balanced stack hb x hx
    · exact h'.balanced stack (h.nests.balanced stack hb) x hx

theorem perform {logger : Logger (HostFunction C σ) σ (Simulated C σ) (Step C σ)}
    (hl : ∀ p s, Chronicles code s.1 (logger p s) (runner p s).2.1)
    (o : Op (HostFunction C σ)) (s : Simulated C σ × σ) :
    Chronicles code s.1 (observeSteps code runner logger o s)
      (Simulated.perform code runner o s).2.1 := by
  have hnests : Nests code s.1 [] (Simulated.perform code runner o s).2.1 :=
    (Nests.perform (fun p s => (hl p s).nests) o s).forget
  have hlast (stack : List Activation) (hb : s.1.Balanced stack) :
      (Simulated.perform code runner o s).2.1.Balanced ([] ++ stack) := hnests.balanced stack hb
  unfold observeSteps
  cases ho : opened? code o s with
  | none =>
    refine ⟨hnests, path_single (move_of_opened?_eq_none runner ho), fun stack hb x hx => ?_⟩
    obtain rfl := List.mem_singleton.1 hx
    exact hlast stack hb
  | some entered =>
    obtain ⟨a, p, t⟩ := entered
    have hin := hl p t
    obtain ⟨hopen, hbegin, hend⟩ := moves_of_opened?_eq_some runner ho
    refine ⟨hnests, ⟨hbegin, path_append.2 ⟨_, (path_within [a]).2 hin.path,
      path_single (hend hin.nests.keeps _)⟩⟩, fun stack hb x hx => ?_⟩
    obtain rfl | hx := List.mem_cons.1 hx
    · exact hopen stack hb
    · obtain hx | hx := List.mem_append.1 hx
      · obtain ⟨y, hy, rfl⟩ := List.mem_map.1 hx
        have hy := hin.balanced (a :: stack) (hopen stack hb) y hy
        simpa [Step.within] using hy
      · obtain rfl := List.mem_singleton.1 hx
        exact hlast stack hb

end Chronicles

def Step.Holds (x : Step C σ) (i : Nat) (f : HostFunction C σ) : Prop :=
  x.after.table[i]? = some (if .slot i ∈ x.stack then .running f else .idle f)

theorem Step.holds_of_function? {x : Step C σ} {i : Nat} {f : HostFunction C σ}
    (hb : x.after.Balanced x.stack) (hf : x.after.table.function? i = some f) : x.Holds i f := by
  obtain ⟨slot, hslot, hsf⟩ := Option.bind_eq_some_iff.1 hf
  have hrun := hb.slots i
  rw [Table.running?, hslot] at hrun
  rw [Step.Holds, hslot]
  cases slot with
  | empty => contradiction
  | idle g =>
    obtain rfl := Option.some.inj hsf
    have hn : .slot i ∉ x.stack := fun hi => Bool.noConfusion (hrun.2 hi)
    rw [if_neg hn]
  | running g =>
    obtain rfl := Option.some.inj hsf
    rw [if_pos (hrun.1 rfl)]

theorem chronicle_chronicles (code : C → List Value → HostProgram C σ Value) (depth : Nat)
    (p : HostProgram C σ α) (s : Simulated C σ × σ) :
    Chronicles code s.1 (chronicle code depth p s)
      (p.run (Meaning.nested (perform code) depth) s).2.1 :=
  (Chronicles.sequential code).program
    (fun o s => (Chronicles.sequential code).nested
      (fun _ _ hl o s => Chronicles.perform hl o s) depth o s) p s

theorem quiet_ofEntries (entries : List (String × Entry C)) :
    (ofEntries entries : Simulated C σ).Quiet := ⟨rfl, fun _ => rfl⟩

/-- An index is given out once. Its slot holds the function that was registered there until the
function is released, and runs it exactly while it is active; from then on whoever calls or releases
it is told that there is none. At every step the functions that are there, ready or running, are as
many as were registered and not released. -/
theorem handles_kept (code : C → List Value → HostProgram C σ Value)
    (entries : List (String × Entry C)) (p : HostProgram C σ α) (depth : Nat) (w : σ) :
    (∀ l₁ x l₂ i f, chronicle code depth p (ofEntries entries, w) = l₁ ++ x :: l₂ →
      x.mark.Registers i f →
        (∀ y ∈ l₁ ++ l₂, ∀ g, ¬ y.mark.Registers i g) ∧
        (∀ y ∈ l₁, ¬ y.mark.Releases i) ∧
        x.Holds i f ∧
        ∀ l₃ y l₄, l₂ = l₃ ++ y :: l₄ →
          ((∀ z ∈ l₃, ¬ z.mark.Releases i) → ¬ y.mark.Releases i → y.Holds i f) ∧
          (y.mark.Releases i → ∀ z ∈ l₄, z.mark.Bars i)) ∧
    ∀ x ∈ chronicle code depth p (ofEntries entries, w),
      x.after.registered = x.after.released + x.after.table.live := by
  have hc := chronicle_chronicles code depth p (ofEntries entries, w)
  have hpath := hc.path
  have hquiet : (ofEntries entries : Simulated C σ).Balanced [] :=
    balanced_nil_iff.2 (quiet_ofEntries entries)
  have hb (x : Step C σ) (hx : x ∈ chronicle code depth p (ofEntries entries, w)) :
      x.after.Balanced x.stack := by
    have hstack := hc.balanced [] hquiet x hx
    rwa [List.append_nil] at hstack
  refine ⟨fun l₁ x l₂ i f hl hx => ?_, hpath.counted rfl⟩
  rw [hl] at hpath hb
  obtain ⟨v, h₁, hmove, h₂⟩ := hpath.split
  obtain ⟨hi, hidle⟩ := hmove.of_registers hx
  have hf : x.after.table.function? i = some f :=
    Table.function?_of_idle? (Table.idle?_eq_some_iff.2 hidle)
  refine ⟨fun y hy g hg => ?_, fun y hy hrel => ?_, ?_, fun l₃ y l₄ hl₂ => ?_⟩
  · obtain hy | hy := List.mem_append.1 hy
    · exact Nat.ne_of_lt (h₁.of_registers hy hg).2 hi
    · exact Nat.not_lt.2 (h₂.of_registers hy hg).1 (Table.lt_of_function? hf)
  · exact Nat.ne_of_lt (h₁.lt_of_releases hy hrel) hi
  · exact Step.holds_of_function? (hb x (by simp)) hf
  · rw [hl₂] at h₂
    obtain ⟨v', h₃, hmove', h₄⟩ := h₂.split
    constructor
    · intro hno hy
      have hkept := hmove'.of_function? (h₃.function?_eq hf hno) hy
      exact Step.holds_of_function? (hb y (by simp [hl₂])) hkept
    · exact fun hrel => h₄.bars_of_empty (hmove'.of_releases hrel).2

/-- A function cannot release itself while it runs; here that is done behind the call. -/
example :
    (chronicle reentrantCode 2 (do
        let i ← Program.perform (.register (.custom .importOnly true))
        let _ ← (Program.perform (.invoke i [.void, .void, .void])).attempt
        Program.perform (.release i)) (ofEntries [], ())).map
      (fun x => (x.stack, x.after.registered, x.after.released, x.after.table.live)) =
    [([], 1, 0, 1), ([.slot 0], 1, 0, 1), ([.slot 0], 1, 0, 1), ([], 1, 0, 1), ([], 1, 1, 0)] := by
  decide +kernel

end SolidityHost.Simulated
