import SolidityHost.Json.Printer
import SolidityHost.Proofs.Text.Digits

/-!
# JSON text has no control characters

A string is written with escapes for its control characters, and no other part of a value has any.
So the text of a value stands on one line, and no zero character ends it early.
-/

set_option autoImplicit false

namespace SolidityHost.Json

def Printable (s : List Char) : Prop := ∀ c ∈ s, 0x20 ≤ c.toNat

instance (s : List Char) : Decidable (Printable s) :=
  List.decidableBAll (fun c : Char => 0x20 ≤ c.toNat) s

variable {s t : List Char} {c : Char}

theorem printable_cons : Printable (c :: s) ↔ 0x20 ≤ c.toNat ∧ Printable s :=
  List.forall_mem_cons

theorem printable_append : Printable (s ++ t) ↔ Printable s ∧ Printable t :=
  List.forall_mem_append

theorem Printable.take (h : Printable s) (n : Nat) : Printable (s.take n) :=
  fun c hc => h c (List.mem_of_mem_take hc)

theorem Printable.drop (h : Printable s) (n : Nat) : Printable (s.drop n) :=
  fun c hc => h c (List.mem_of_mem_drop hc)

theorem Printable.notMem (h : Printable s) (hc : c.toNat < 0x20) : c ∉ s :=
  fun hmem => Nat.not_lt.2 (h c hmem) hc

theorem printable_replicate (n : Nat) (hc : 0x20 ≤ c.toNat) : Printable (List.replicate n c) :=
  fun _ hd => (List.mem_replicate.1 hd).2 ▸ hc

theorem printable_toDigits (n : Nat) : Printable (Nat.toDigits 10 n) := by
  intro c hc
  have hdigit := (Text.isRun_toDigits n).2 c hc
  have hrange : 48 ≤ c.toNat ∧ c.toNat ≤ 57 := Char.isDigit_iff_toNat.1 hdigit
  omega

theorem printable_renderInt (n : Int) : Printable (renderInt n) := by
  unfold renderInt
  split
  · exact printable_cons.2 ⟨by decide, printable_toDigits _⟩
  · exact printable_toDigits _

theorem printable_renderDecimal (d : Binary64.Decimal) : Printable (Binary64.renderDecimal d) := by
  have hdigits := printable_toDigits d.digits
  unfold Binary64.renderDecimal
  dsimp only
  split
  · refine printable_append.2 ⟨printable_append.2
      ⟨hdigits.take _, printable_replicate _ (by decide)⟩, printable_cons.2 ⟨by decide, ?_⟩⟩
    split
    · decide
    · exact hdigits.drop _
  · split
    · exact printable_cons.2 ⟨by decide, printable_cons.2 ⟨by decide, printable_append.2
        ⟨printable_replicate _ (by decide), hdigits⟩⟩⟩
    · have hsign (power : Int) : 0x20 ≤ (if power < 0 then '-' else '+').toNat := by
        split <;> decide
      refine printable_append.2 ⟨printable_append.2 ⟨hdigits.take _, ?_⟩, printable_cons.2
        ⟨by decide, printable_cons.2 ⟨hsign _, printable_toDigits _⟩⟩⟩
      split
      · decide
      · exact printable_cons.2 ⟨by decide, hdigits.drop _⟩

theorem printable_double (x : Binary64) : Printable x.render := by
  have hmagnitude : Printable (if x.isZero then ['0', '.', '0'] else
      Binary64.renderDecimal x.shortest) := by
    split
    · decide
    · exact printable_renderDecimal _
  unfold Binary64.render
  dsimp only
  split
  · exact printable_cons.2 ⟨by decide, hmagnitude⟩
  · exact hmagnitude

theorem printable_number : ∀ n : Number, Printable n.render
  | .integer n _ => printable_renderInt n
  | .double x => printable_double x

theorem printable_escapeChar (c : Char) : Printable (escapeChar c) := by
  have hdigit : ∀ n < 16, 0x20 ≤ (Text.hexDigit n).toNat := by decide
  unfold escapeChar
  by_cases hlt : c.toNat < 0x20
  · have hhigh := hdigit (c.toNat / 16) (by omega)
    have hlow := hdigit (c.toNat % 16) (by omega)
    rw [if_pos hlt]
    repeat' split
    all_goals simp [Printable, hhigh, hlow]
  · rw [if_neg hlt]
    repeat' split
    all_goals simp [Printable, Nat.le_of_not_lt hlt]

theorem printable_quote (s : List Char) : Printable (quote s) := by
  have hbody : Printable (s.flatMap escapeChar) := by
    intro c hc
    obtain ⟨d, -, hd⟩ := List.mem_flatMap.1 hc
    exact printable_escapeChar d c hd
  exact printable_append.2 ⟨printable_cons.2 ⟨by decide, hbody⟩, by decide⟩

mutual

theorem printable_render : ∀ j : Json, Printable j.render
  | .null => by decide
  | .bool b => by cases b <;> decide
  | .number n => printable_number n
  | .string s => printable_quote s.toList
  | .array items => printable_cons.2 ⟨by decide, printable_renderItems items⟩
  | .object fields => printable_cons.2 ⟨by decide, printable_renderFields fields⟩

theorem printable_renderItems : ∀ items : List Json, Printable (renderItems items)
  | [] => by decide
  | [j] => printable_append.2 ⟨printable_render j, by decide⟩
  | j :: k :: rest => by
    rw [renderItems]
    · exact printable_append.2
        ⟨printable_render j, printable_cons.2 ⟨by decide, printable_renderItems (k :: rest)⟩⟩
    · simp

theorem printable_renderFields : ∀ fields : List (String × Json), Printable (renderFields fields)
  | [] => by decide
  | [(key, j)] => by
    rw [renderFields]
    exact printable_append.2 ⟨printable_append.2
      ⟨printable_quote key.toList, printable_cons.2 ⟨by decide, printable_render j⟩⟩, by decide⟩
  | (key, j) :: e :: rest => by
    rw [renderFields]
    · exact printable_append.2 ⟨printable_append.2
        ⟨printable_quote key.toList, printable_cons.2 ⟨by decide, printable_render j⟩⟩,
        printable_cons.2 ⟨by decide, printable_renderFields (e :: rest)⟩⟩
    · simp

end

theorem zero_notMem_toText (j : Json) : '\x00' ∉ j.toText.toList := by
  rw [toText, String.toList_ofList]
  exact (printable_render j).notMem (by decide)

end SolidityHost.Json
