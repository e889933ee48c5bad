import Mathlib.Data.List.Forall2
import SolidityHost.Output.Encoding
import SolidityHost.Proofs.Json.Arrangement

/-!
# Reading and writing

What is written for a value that was read keeps what was read: unknown fields are left
out, defaults are filled in, and a field without a value is not written. Read again, it gives the
value that was written. Each is shown for the parts of a record, and follows for the record.
-/

set_option autoImplicit false

namespace SolidityHost.Json

variable {α : Type} {f : Json → Json} {j k : Json} {n p : Nat} {q : String} {r : Record}

theorem InOrder.items {items : List Json} (h : (Json.array items).InOrder) :
    ∀ j ∈ items, j.InOrder := by
  cases h with
  | array h => exact h

theorem InOrder.fields {fields : Entries Json} (h : (Json.object fields).InOrder) :
    fields.Ordered ∧ ∀ e ∈ fields, e.2.InOrder := by
  cases h with
  | object ho h => exact ⟨ho, h⟩

theorem InOrder.record (h : j.InOrder) (hr : j.record? n = some r) (p : Nat) (q : String) :
    ∀ k ∈ r.field? p q, k.InOrder := by
  intro k hk
  cases j with
  | object fields =>
    obtain rfl := Option.some.inj hr
    exact h.fields.2 _ (Entries.mem_of_get? hk)
  | array items =>
    rw [record?, Option.ite_none_right_eq_some] at hr
    obtain rfl := Option.some.inj hr.2
    exact h.items k (List.mem_of_getElem? hk)
  | _ => exact nomatch hr

inductive Presence where
  | required
  -- null, too, stands for no value
  | optional
  | defaulted (value : Json)
  -- left out if it is an empty list or an empty object
  | nonempty

structure Known where
  name : String
  presence : Presence
  keeps : Json → Json → Prop

def Presence.Absent : Presence → Option Json → Option Json → Prop
  | .required, _, _ => False
  | .optional, before, after => (before = none ∨ before = some .null) ∧ after = none
  | .defaulted value, before, after => before = none ∧ after = some value
  | .nonempty, before, after =>
    (before = none ∨ before = some (.array []) ∨ before = some (.object [])) ∧ after = none

def Known.Keeps (k : Known) (before after : Option Json) : Prop :=
  k.presence.Absent before after ∨ ∃ v w, before = some v ∧ after = some w ∧ k.keeps v w

inductive KeepsFields (r : Record) : Nat → List Known → List (String × Option Json) → Prop
  | nil (p : Nat) : KeepsFields r p [] []
  | cons {p : Nat} {k : Known} {known : List Known} {after : Option Json}
      {parts : List (String × Option Json)} (h : k.Keeps (r.field? p k.name) after)
      (rest : KeepsFields r (p + 1) known parts) :
      KeepsFields r p (k :: known) ((k.name, after) :: parts)

def KeepsRecord (known : List Known) (v w : Json) : Prop :=
  ∃ r parts, v.record? known.length = some r ∧ w = .object (written parts) ∧
    KeepsFields r 0 known parts

def KeepsList (keeps : Json → Json → Prop) (v w : Json) : Prop :=
  ∃ items items', v = .array items ∧ w = .array items' ∧ List.Forall₂ keeps items items'

def KeepsDict (keeps : Json → Json → Prop) (v w : Json) : Prop :=
  ∃ fields fields' : Entries Json, v = .object fields ∧ w = .object fields' ∧
    List.Forall₂ (fun e e' => e.1 = e'.1 ∧ keeps e.2 e'.2) fields fields'

def KeepsName (v w : Json) : Prop :=
  ∃ s, w = .string s ∧ (v = .string s ∨ v = .object [(s, .null)])

/-- A reader and a writer that belong together. What is read is sound, and what is written for it
keeps what was read; what is written for sound values gives them again. -/
structure Codec (decode : Json → Option α) (encode : α → Json) (sound : α → Prop)
    (keeps : Json → Json → Prop) : Prop where
  reads : ∀ v a, v.InOrder → decode v = some a → sound a ∧ keeps v (encode a)
  rereads : ∀ f, Arrangement f → ∀ a, sound a → decode (f (encode a)) = some a

theorem codec_raw : Codec some id InOrder Eq where
  reads v a hv h := by
    obtain rfl := Option.some.inj h
    exact ⟨hv, rfl⟩
  rereads f hf a ha := congrArg some (hf.inOrder a ha)

theorem codec_string : Codec string? .string (fun _ => True) Eq where
  reads v s _ h := by
    cases v with
    | string s' =>
      obtain rfl := Option.some.inj h
      exact ⟨trivial, rfl⟩
    | _ => exact nomatch h
  rereads f hf s _ := by rw [hf.string]; rfl

theorem ofInt_of_fits {n : Int} (h : FitsWord n) : Number.ofInt n = .integer n h := dif_pos h

theorem codec_natural : Codec natural? ofNat (· < 0x10000000000000000) Eq where
  reads v n _ h := by
    unfold natural? at h
    split at h
    · next m fits _ =>
      rw [Option.ite_none_right_eq_some] at h
      obtain ⟨hm, hn⟩ := h
      obtain rfl := Option.some.inj hn
      have hcast : (m.toNat : Int) = m := Int.toNat_of_nonneg hm
      refine ⟨by have := fits.2; omega, ?_⟩
      rw [ofNat, hcast, ofInt_of_fits fits]
    · contradiction
  rereads f hf n hn := by
    have fits : FitsWord n := ⟨by omega, by omega⟩
    rw [ofNat, ofInt_of_fits fits, hf.number]
    simp [natural?]

def FitsSigned (n : Int) : Prop := -0x8000000000000000 ≤ n ∧ n < 0x8000000000000000

theorem codec_signed : Codec signed? (fun n => .number (Number.ofInt n)) FitsSigned Eq where
  reads v n _ h := by
    unfold signed? at h
    split at h
    · next m fits _ =>
      rw [Option.ite_none_right_eq_some] at h
      obtain ⟨hm, hn⟩ := h
      obtain rfl := Option.some.inj hn
      exact ⟨⟨fits.1, hm⟩, by rw [ofInt_of_fits fits]⟩
    · contradiction
  rereads f hf n hn := by
    have fits : FitsWord n := ⟨hn.1, by have := hn.2; omega⟩
    rw [ofInt_of_fits fits, hf.number]
    simp [signed?, hn.2]

theorem mapM_eq_some_iff {β γ : Type} {g : β → Option γ} {bs : List β} {cs : List γ} :
    bs.mapM g = some cs ↔ List.Forall₂ (fun b c => g b = some c) bs cs := by
  induction bs generalizing cs with
  | nil => simp [eq_comm]
  | cons b bs ih => cases cs <;> simp [List.mapM_cons, Option.bind_eq_some_iff, ih]

section

variable {decode : Json → Option α} {encode : α → Json} {sound : α → Prop}
  {keeps : Json → Json → Prop}

theorem dictOf_encode {g : α → α} (hf : Arrangement f) {d : Dict α}
    (hd : d.All fun a => decode (f (encode a)) = some (g a)) :
    dictOf decode (f (d.encode encode)) = some (d.map g) := by
  have hfields : ((d.entries.map fun e => (e.1, encode e.2)).map fun e => (e.1, f e.2)).mapM
      (fun e => (decode e.2).map fun a => (e.1, a)) = some (d.map g).entries := by
    rw [mapM_eq_some_iff, List.forall₂_map_left_iff, List.forall₂_map_left_iff, Dict.map,
      List.forall₂_map_right_iff, List.forall₂_same]
    exact fun e he => by rw [hd e he]; rfl
  rw [Dict.encode, hf.ordered _ (d.ordered.map encode)]
  exact Option.map_eq_some_iff.2 ⟨_, hfields, Dict.ofList_entries _⟩

theorem nonemptyDict_encode {g : α → α} (hf : Arrangement f) {d : Dict α} {before : Option Json}
    (hb : before = (if d.isEmpty then none else some (d.encode encode)).map f)
    (hd : d.All fun a => decode (f (encode a)) = some (g a)) :
    defaulted Dict.empty (dictOf decode) before = some (d.map g) := by
  subst hb
  by_cases hempty : d.isEmpty
  · have hd : d = Dict.empty := Dict.ext (List.isEmpty_iff.1 hempty)
    rw [if_pos hempty, hd]
    rfl
  · rw [if_neg hempty]
    exact dictOf_encode hf hd

namespace Codec

variable (h : Codec decode encode sound keeps)

include h

theorem reads_all {items : List Json} {as : List α} (hv : ∀ j ∈ items, j.InOrder)
    (hd : List.Forall₂ (fun j a => decode j = some a) items as) :
    (∀ a ∈ as, sound a) ∧ List.Forall₂ keeps items (as.map encode) := by
  induction hd with
  | nil => exact ⟨nofun, .nil⟩
  | cons ha _ ih =>
    obtain ⟨hj, hitems⟩ := List.forall_mem_cons.1 hv
    obtain ⟨hsound, hkeeps⟩ := h.reads _ _ hj ha
    exact ⟨List.forall_mem_cons.2 ⟨hsound, (ih hitems).1⟩, .cons hkeeps (ih hitems).2⟩

theorem list : Codec (arrayOf decode) (fun as => .array (as.map encode)) (∀ a ∈ ·, sound a)
    (KeepsList keeps) where
  reads v as hv hd := by
    cases v with
    | array items =>
      obtain ⟨hsound, hkeeps⟩ := h.reads_all hv.items (mapM_eq_some_iff.1 hd)
      exact ⟨hsound, items, _, rfl, rfl, hkeeps⟩
    | _ => exact nomatch hd
  rereads f hf as has := by
    have hitems : ((as.map encode).map f).mapM decode = some as := by
      rw [mapM_eq_some_iff, List.forall₂_map_left_iff, List.forall₂_map_left_iff,
        List.forall₂_same]
      exact fun a ha => h.rereads f hf a (has a ha)
    rw [hf.array]
    exact hitems

theorem reads_allFields {fields : Entries Json} {pairs : Entries α}
    (hv : ∀ e ∈ fields, e.2.InOrder)
    (hd : List.Forall₂ (fun e p => (decode e.2).map (fun a => (e.1, a)) = some p) fields pairs) :
    pairs.map (·.1) = fields.map (·.1) ∧ (∀ p ∈ pairs, sound p.2) ∧
      List.Forall₂ (fun e e' => e.1 = e'.1 ∧ keeps e.2 e'.2) fields
        (pairs.map fun p => (p.1, encode p.2)) := by
  induction hd with
  | nil => exact ⟨rfl, nofun, .nil⟩
  | @cons e p fields pairs hp _ ih =>
    obtain ⟨he, hfields⟩ := List.forall_mem_cons.1 hv
    obtain ⟨a, ha, rfl⟩ := Option.map_eq_some_iff.1 hp
    obtain ⟨hkeys, hsound, hkeeps⟩ := ih hfields
    obtain ⟨hsoundA, hkeepsA⟩ := h.reads _ _ he ha
    refine ⟨congrArg (e.1 :: ·) hkeys, List.forall_mem_cons.2 ⟨hsoundA, hsound⟩, ?_⟩
    exact .cons ⟨rfl, hkeepsA⟩ hkeeps

theorem dict : Codec (dictOf decode) (Dict.encode encode) (·.All sound) (KeepsDict keeps) where
  reads v d hv hd := by
    cases v with
    | object fields =>
      obtain ⟨pairs, hpairs, rfl⟩ := Option.map_eq_some_iff.1 hd
      obtain ⟨ho, hall⟩ := hv.fields
      obtain ⟨hkeys, hsound, hkeeps⟩ := h.reads_allFields hall (mapM_eq_some_iff.1 hpairs)
      have hordered : Entries.Ordered pairs := by
        rwa [Entries.ordered_iff, hkeys, ← Entries.ordered_iff]
      have hentries : (Dict.ofList pairs).entries = pairs :=
        (Dict.entries_ofList pairs).trans (Entries.ofList_of_ordered hordered)
      refine ⟨fun p hp => hsound p (hentries ▸ hp), fields, _, rfl, rfl, ?_⟩
      rwa [hentries]
    | _ => exact nomatch hd
  rereads f hf d hd := by
    have hall : d.All fun a => decode (f (encode a)) = some (id a) :=
      fun e he => h.rereads f hf e.2 (hd e he)
    exact (dictOf_encode hf hall).trans (congrArg some (Dict.map_eq_self_iff.2 fun _ _ => rfl))

variable {before : Option Json} {a value : α} {x : Option α} (name : String)
  (hv : ∀ v ∈ before, v.InOrder)

include hv

theorem reads_required (hd : required decode before = some a) :
    sound a ∧ (Known.mk name .required keeps).Keeps before (some (encode a)) := by
  obtain ⟨v, rfl, hd⟩ := Option.bind_eq_some_iff.1 hd
  obtain ⟨hsound, hkeeps⟩ := h.reads v a (hv v rfl) hd
  exact ⟨hsound, .inr ⟨v, _, rfl, rfl, hkeeps⟩⟩

theorem reads_defaulted (hvalue : sound value) (hd : defaulted value decode before = some a) :
    sound a ∧
      (Known.mk name (.defaulted (encode value)) keeps).Keeps before (some (encode a)) := by
  cases before with
  | none =>
    obtain rfl := Option.some.inj hd
    exact ⟨hvalue, .inl ⟨rfl, rfl⟩⟩
  | some v =>
    obtain ⟨hsound, hkeeps⟩ := h.reads v a (hv v rfl) hd
    exact ⟨hsound, .inr ⟨v, _, rfl, rfl, hkeeps⟩⟩

theorem reads_optional (hd : optional decode before = some x) :
    (∀ a ∈ x, sound a) ∧ (Known.mk name .optional keeps).Keeps before (x.map encode) := by
  unfold optional at hd
  split at hd
  · obtain rfl := Option.some.inj hd
    exact ⟨nofun, .inl ⟨.inl rfl, rfl⟩⟩
  · obtain rfl := Option.some.inj hd
    exact ⟨nofun, .inl ⟨.inr rfl, rfl⟩⟩
  · next v _ =>
    obtain ⟨a, ha, rfl⟩ := Option.map_eq_some_iff.1 hd
    obtain ⟨hsound, hkeeps⟩ := h.reads v a (hv v rfl) ha
    refine ⟨fun b hb => ?_, .inr ⟨v, _, rfl, rfl, hkeeps⟩⟩
    obtain rfl := Option.some.inj hb
    exact hsound

theorem reads_nonemptyList {as : List α} (hd : defaulted [] (arrayOf decode) before = some as) :
    (∀ a ∈ as, sound a) ∧ (Known.mk name .nonempty (KeepsList keeps)).Keeps before
      (if as.isEmpty then none else some (.array (as.map encode))) := by
  cases before with
  | none =>
    obtain rfl := Option.some.inj hd
    exact ⟨nofun, .inl ⟨.inl rfl, rfl⟩⟩
  | some v =>
    obtain ⟨hsound, hkeeps⟩ := h.list.reads v as (hv v rfl) hd
    refine ⟨hsound, ?_⟩
    cases as with
    | nil =>
      obtain ⟨items, items', rfl, hitems', hall⟩ := hkeeps
      obtain rfl := Json.array.inj hitems'
      obtain rfl := List.forall₂_nil_right_iff.1 hall
      exact .inl ⟨.inr (.inl rfl), rfl⟩
    | cons a as => exact .inr ⟨v, _, rfl, rfl, hkeeps⟩

theorem reads_nonemptyDict {d : Dict α}
    (hd : defaulted Dict.empty (dictOf decode) before = some d) :
    d.All sound ∧ (Known.mk name .nonempty (KeepsDict keeps)).Keeps before
      (if d.isEmpty then none else some (d.encode encode)) := by
  cases before with
  | none =>
    obtain rfl := Option.some.inj hd
    exact ⟨nofun, .inl ⟨.inl rfl, rfl⟩⟩
  | some v =>
    obtain ⟨hsound, hkeeps⟩ := h.dict.reads v d (hv v rfl) hd
    refine ⟨hsound, ?_⟩
    by_cases hempty : d.isEmpty
    · rw [if_pos hempty]
      obtain ⟨fields, fields', rfl, hfields', hall⟩ := hkeeps
      obtain rfl := Json.object.inj hfields'
      rw [List.isEmpty_iff.1 hempty] at hall
      obtain rfl := List.forall₂_nil_right_iff.1 hall
      exact .inl ⟨.inr (.inr rfl), rfl⟩
    · rw [if_neg hempty]
      exact .inr ⟨v, _, rfl, rfl, hkeeps⟩

omit hv

variable (hf : Arrangement f)

include hf

theorem rereads_required (hb : before = (some (encode a)).map f) (ha : sound a) :
    required decode before = some a := by
  rw [hb]
  exact h.rereads f hf a ha

theorem rereads_defaulted (value : α) (hb : before = (some (encode a)).map f) (ha : sound a) :
    defaulted value decode before = some a := by
  rw [hb]
  exact h.rereads f hf a ha

theorem rereads_optional (hb : before = (x.map encode).map f) (hnull : decode .null = none)
    (hx : ∀ a ∈ x, sound a) : optional decode before = some x := by
  subst hb
  cases x with
  | none => rfl
  | some a =>
    have ha := h.rereads f hf a (hx a rfl)
    rw [Option.map_some, Option.map_some]
    unfold optional
    split
    · contradiction
    · next heq =>
      rw [Option.some.inj heq, hnull] at ha
      contradiction
    · next heq => rw [← Option.some.inj heq, ha, Option.map_some]

theorem rereads_nonemptyList {as : List α}
    (hb : before = (if as.isEmpty then none else some (.array (as.map encode))).map f)
    (has : ∀ a ∈ as, sound a) : defaulted [] (arrayOf decode) before = some as := by
  subst hb
  cases as with
  | nil => rfl
  | cons a as => exact h.list.rereads f hf _ has

theorem rereads_nonemptyDict {d : Dict α}
    (hb : before = (if d.isEmpty then none else some (d.encode encode)).map f)
    (hd : d.All sound) : defaulted Dict.empty (dictOf decode) before = some d := by
  have hall : d.All fun a => decode (f (encode a)) = some (id a) :=
    fun e he => h.rereads f hf e.2 (hd e he)
  exact (nonemptyDict_encode hf hb hall).trans
    (congrArg some (Dict.map_eq_self_iff.2 fun _ _ => rfl))

end Codec

end

def Raw (x : Option Json) : Prop := ∀ j ∈ x, j.InOrder ∧ j ≠ .null

theorem ne_null_of_optional {before x : Option Json} (h : optional some before = some x) :
    x ≠ some .null := by
  unfold optional at h
  split at h
  · exact Option.some.inj h ▸ nofun
  · exact Option.some.inj h ▸ nofun
  · next hnull =>
    obtain rfl := Option.some.inj h
    rintro heq
    exact hnull (Option.some.inj heq)

theorem reads_raw {before x : Option Json} (name : String) (hv : ∀ v ∈ before, v.InOrder)
    (hd : optional some before = some x) :
    Raw x ∧ (Known.mk name .optional Eq).Keeps before x := by
  obtain ⟨hsound, hkeeps⟩ := codec_raw.reads_optional name hv hd
  rw [Option.map_id] at hkeeps
  refine ⟨fun j hj => ⟨hsound j hj, ?_⟩, hkeeps⟩
  rintro rfl
  exact ne_null_of_optional hd hj

theorem rereads_nullable {before x : Option Json} (hf : Arrangement f) (hb : before = x.map f)
    (hx : ∀ j ∈ x, j.InOrder) : optional some before = some (x.filter fun j => !j.isNull) := by
  subst hb
  cases x with
  | none => rfl
  | some j =>
    rw [Option.map_some, hf.inOrder j (hx j rfl)]
    cases j <;> rfl

theorem filter_isNull_eq_self_iff {x : Option Json} :
    (x.filter fun j => !j.isNull) = x ↔ x ≠ some .null := by
  rcases x with _ | j
  · simp
  · cases j <;> simp [isNull]

theorem Raw.ne_null {x : Option Json} (hx : Raw x) : x ≠ some .null :=
  fun heq => (hx _ heq).2 rfl

theorem rereads_raw {before x : Option Json} (hf : Arrangement f) (hb : before = x.map f)
    (hx : Raw x) : optional some before = some x := by
  rw [rereads_nullable hf hb fun j hj => (hx j hj).1, filter_isNull_eq_self_iff.2 hx.ne_null]

end SolidityHost.Json
