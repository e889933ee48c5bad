import SolidityHost.Json.Reader

/-!
# Key order of values that were read

Every object of a value that was read lists its fields in key order, also those that stand inside
of other values. The reader keeps this for each container that is still open.
-/

set_option autoImplicit false

namespace SolidityHost.Json

inductive InOrder : Json → Prop
  | null : InOrder .null
  | bool (b : Bool) : InOrder (.bool b)
  | number (n : Number) : InOrder (.number n)
  | string (s : String) : InOrder (.string s)
  | array {items : List Json} (h : ∀ j ∈ items, InOrder j) : InOrder (.array items)
  | object {fields : Entries Json} (ho : fields.Ordered) (h : ∀ e ∈ fields, InOrder e.2) :
      InOrder (.object fields)

theorem InOrder.single {j : Json} (h : j.InOrder) (key : String) :
    (Json.object [(key, j)]).InOrder :=
  .object (List.pairwise_singleton ..) (List.forall_mem_singleton.2 h)

theorem InOrder.field? {j k : Json} (h : j.InOrder) {key : String} (hk : j.field? key = some k) :
    k.InOrder := by
  cases h with
  | object ho h =>
    obtain ⟨_, _, rfl, -⟩ := List.lookup_eq_some_iff.1 hk
    exact h (key, k) (List.mem_append_right _ List.mem_cons_self)
  | _ => exact nomatch hk

theorem InOrder.ordered_object? {j : Json} (h : j.InOrder) {fields : Entries Json}
    (hf : j.object? = some fields) : fields.Ordered := by
  cases h with
  | object ho h =>
    obtain rfl := Option.some.inj hf
    exact ho
  | _ => exact nomatch hf

theorem mem_object? {j : Option Json} {e : String × Json} (h : e ∈ (j.bind object?).getD []) :
    ∃ fields, j = some (.object fields) ∧ e ∈ fields := by
  cases j with
  | none => contradiction
  | some j =>
    cases j with
    | object fields => exact ⟨fields, rfl, h⟩
    | _ => contradiction

theorem InOrder.of_mem_field? {j : Json} (h : j.InOrder) {key : String} {e : String × Json}
    (he : e ∈ ((j.field? key).bind object?).getD []) : e.2.InOrder := by
  obtain ⟨fields, hfields, he⟩ := mem_object? he
  cases h.field? hfields with
  | object _ hall => exact hall e he

theorem InOrder.ordered_field? {j : Json} (h : j.InOrder) (key : String) :
    Entries.Ordered (((j.field? key).bind object?).getD []) := by
  cases hk : j.field? key with
  | none => exact .nil
  | some k =>
    cases hfields : k.object? with
    | none => simp [hfields, Entries.Ordered]
    | some fields => simpa [hfields] using (h.field? hk).ordered_object? hfields

def Token.InOrder : Token → Prop
  | .scalar j => j.InOrder
  | _ => True

theorem inOrder_constant? {s : List Char} {r : Json × List Char} (h : constant? s = some r) :
    r.1.InOrder := by
  unfold constant? at h
  split at h
  · obtain rfl := Option.some.inj h
    exact .null
  · obtain rfl := Option.some.inj h
    exact .bool true
  · obtain rfl := Option.some.inj h
    exact .bool false
  · contradiction

theorem inOrder_scalar? {s : List Char} {r : Json × List Char} (h : scalar? s = some r) :
    r.1.InOrder := by
  unfold scalar? at h
  split at h
  · simp only [Option.bind_eq_some_iff, Option.map_eq_some_iff] at h
    obtain ⟨_, _, _, _, rfl⟩ := h
    exact .string _
  · split at h
    · next hc => exact inOrder_constant? (hc.trans h)
    · simp only [Option.bind_eq_some_iff, Option.map_eq_some_iff] at h
      obtain ⟨_, _, _, _, rfl⟩ := h
      exact .number _

theorem inOrder_punctuation? {c : Char} {t : Token} (h : punctuation? c = some t) : t.InOrder := by
  cases t with
  | scalar j =>
    unfold punctuation? at h
    repeat' split at h
    all_goals exact nomatch h
  | _ => trivial

theorem inOrder_tokens? {s : List Char} {ts : List Token} (h : tokens? s = some ts) :
    ∀ t ∈ ts, t.InOrder := by
  fun_induction tokens? s generalizing ts with
  | case1 =>
    obtain rfl := Option.some.inj h
    simp
  | case2 c rest hgap ih => exact ih h
  | case3 c rest hgap t ht ih =>
    obtain ⟨us, hus, rfl⟩ := Option.map_eq_some_iff.1 h
    exact List.forall_mem_cons.2 ⟨inOrder_punctuation? ht, ih hus⟩
  | case4 c rest hgap hp hs => contradiction
  | case5 c rest hgap hp r hs hlt ih =>
    obtain ⟨us, hus, rfl⟩ := Option.map_eq_some_iff.1 h
    exact List.forall_mem_cons.2 ⟨inOrder_scalar? hs, ih hus⟩

def Frame.InOrder : Frame → Prop
  | .array items => ∀ j ∈ items, j.InOrder
  | .object fields _ => (Json.object fields).InOrder

def Place.InOrder : Place → Prop
  | .nextKey fields => (Json.object fields).InOrder
  | .colon fields _ => (Json.object fields).InOrder
  | .behind j => j.InOrder
  | _ => True

theorem inOrder_emptyArray : InOrder (.array []) := .array fun _ h => nomatch h

theorem inOrder_emptyObject : InOrder (.object []) := .object .nil fun _ h => nomatch h

theorem InOrder.insert {fields : Entries Json} (h : InOrder (.object fields)) (key : String)
    {j : Json} (hj : j.InOrder) : InOrder (.object (fields.insert key j)) := by
  cases h with
  | object ho h =>
    refine .object (ho.insert key j) fun e he => ?_
    obtain rfl | he := Entries.mem_insert he
    · exact hj
    · exact h e he

theorem inOrder_read {stack : List Frame} {place : Place} {ts : List Token} {j : Json}
    (h : read stack place ts = some j) (hstack : ∀ f ∈ stack, f.InOrder) (hplace : place.InOrder)
    (hts : ∀ t ∈ ts, t.InOrder) : j.InOrder := by
  -- a value goes into the innermost container, or the token opens one; the other steps only move on
  fun_induction read stack place ts
  all_goals try simp only [List.forall_mem_cons] at *
  case case1 =>
    obtain rfl := Option.some.inj h
    exact hplace
  case case3 ih => exact ih h ⟨List.forall_mem_cons.2 ⟨hplace, hstack.1⟩, hstack.2⟩ trivial hts.2
  case case4 ih =>
    refine ih h hstack.2 (.array fun i hi => ?_) hts.2
    obtain rfl | hi := List.mem_cons.1 (List.mem_reverse.1 hi)
    · exact hplace
    · exact hstack.1 i hi
  case case5 ih => exact ih h hstack.2 (hstack.1.insert _ hplace) hts.2
  case case6 ih => exact ih h hstack.2 (hstack.1.insert _ hplace) hts.2
  case case8 ih => exact ih h ⟨hplace, hstack⟩ trivial hts.2
  case case10 ih => exact ih h hstack hplace hts.2
  case case12 ih => exact ih h hstack inOrder_emptyObject hts.2
  case case13 ih => exact ih h hstack inOrder_emptyObject hts.2
  case case15 ih => exact ih h hstack inOrder_emptyArray hts.2
  case case16 ih => exact ih h ⟨(fun _ hi => nomatch hi), hstack⟩ hts.1 hts.2
  case case17 ih => exact ih h ⟨(fun _ hi => nomatch hi), hstack⟩ trivial hts.2
  case case19 ih => exact ih h ⟨(fun _ hi => nomatch hi), hstack⟩ trivial hts.2
  case case22 ih => exact ih h hstack hts.1 hts.2
  case case23 ih => exact ih h hstack trivial hts.2
  case case25 ih => exact ih h hstack trivial hts.2
  all_goals contradiction

theorem inOrder_parse? {s : String} {j : Json} (h : parse? s = some j) : j.InOrder := by
  obtain ⟨ts, hts, hread⟩ := Option.bind_eq_some_iff.1 h
  exact inOrder_read hread (fun _ hf => nomatch hf) trivial (inOrder_tokens? hts)

end SolidityHost.Json
