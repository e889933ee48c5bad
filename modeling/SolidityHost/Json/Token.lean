import SolidityHost.Json.Numeral
import SolidityHost.Text.Class

/-!
# JSON tokens

Text is cut into punctuation, strings, numbers and the three constants; blanks between them are
dropped. A string is first cut into characters and escaped code units, and surrogate units are
paired afterwards.
-/

set_option autoImplicit false

namespace SolidityHost.Json

inductive Token where
  | openArray
  | closeArray
  | openObject
  | closeObject
  | colon
  | comma
  | scalar (j : Json)

inductive StringUnit where
  | char (c : Char)
  | code (n : Nat)
  deriving DecidableEq, Repr

def simpleEscape? (c : Char) : Option Char :=
  if c = '"' then some '"'
  else if c = '\\' then some '\\'
  else if c = '/' then some '/'
  else if c = 'b' then some '\x08'
  else if c = 'f' then some '\x0c'
  else if c = 'n' then some '\n'
  else if c = 'r' then some '\r'
  else if c = 't' then some '\t'
  else none

def unit? (a b c d : Char) : Option Nat := do
  let w ← Text.hexValue? a
  let x ← Text.hexValue? b
  let y ← Text.hexValue? c
  let z ← Text.hexValue? d
  pure (((w * 16 + x) * 16 + y) * 16 + z)

def stringUnits? : List Char → Option (List StringUnit × List Char)
  | [] => none
  | c :: rest =>
    if c = '"' then some ([], rest)
    else if c.toNat < 0x20 then none
    else if c = '\\' then
      match rest with
      | [] => none
      | e :: rest =>
        if e = 'u' then
          match rest with
          | a :: b :: c :: d :: rest => do
            let n ← unit? a b c d
            let (units, after) ← stringUnits? rest
            pure (.code n :: units, after)
          | _ => none
        else do
          let c ← simpleEscape? e
          let (units, after) ← stringUnits? rest
          pure (.char c :: units, after)
    else do
      let (units, after) ← stringUnits? rest
      pure (.char c :: units, after)

def isHighSurrogate (n : Nat) : Bool := 0xD800 ≤ n && n ≤ 0xDBFF

def isLowSurrogate (n : Nat) : Bool := 0xDC00 ≤ n && n ≤ 0xDFFF

def pairUnits? : List StringUnit → Option (List Char)
  -- a high surrogate needs a low one behind it, and the other way round
  | [] => some []
  | .char c :: rest => do pure (c :: (← pairUnits? rest))
  | .code n :: rest =>
    if isLowSurrogate n then none
    else if isHighSurrogate n then
      match rest with
      | .code m :: rest =>
        if isLowSurrogate m then do
          let chars ← pairUnits? rest
          pure (Char.ofNat (0x10000 + (n - 0xD800) * 0x400 + (m - 0xDC00)) :: chars)
        else none
      | _ => none
    else do pure (Char.ofNat n :: (← pairUnits? rest))

theorem stringUnits?_length {s rest : List Char} {units : List StringUnit}
    (h : stringUnits? s = some (units, rest)) : rest.length < s.length := by
  fun_induction stringUnits? s generalizing units rest <;>
    simp only [Option.bind_eq_bind, Option.bind_eq_some_iff, Option.pure_def, Option.some.injEq,
      Prod.mk.injEq, reduceCtorEq] at h
  case case2 => simp [← h.2]
  case case5 ih =>
    obtain ⟨_, _, ⟨us, r⟩, h, _, rfl⟩ := h
    have := ih h
    simp only [List.length_cons]
    omega
  case case7 ih =>
    obtain ⟨_, _, ⟨us, r⟩, h, _, rfl⟩ := h
    have := ih h
    simp only [List.length_cons]
    omega
  case case8 ih =>
    obtain ⟨⟨us, r⟩, h, _, rfl⟩ := h
    have := ih h
    simp only [List.length_cons]
    omega

def digits (s : List Char) : List Nat × List Char :=
  ((s.takeWhile Char.isDigit).map fun c => c.toNat - 0x30, s.dropWhile Char.isDigit)

def minus (s : List Char) : Bool × List Char :=
  match s with
  | '-' :: rest => (true, rest)
  | s => (false, s)

def exponentSign (s : List Char) : Bool × List Char :=
  match s with
  | '+' :: rest => (false, rest)
  | s => minus s

def fraction? (s : List Char) : Option (List Nat × List Char) :=
  match s with
  | '.' :: rest => if (digits rest).1.isEmpty then none else some (digits rest)
  | s => some ([], s)

def exponent? (s : List Char) : Option (Option (Bool × List Nat) × List Char) :=
  match s with
  | [] => some (none, [])
  | c :: rest =>
    if c = 'e' ∨ c = 'E' then
      let sign := exponentSign rest
      let ds := digits sign.2
      if ds.1.isEmpty then none else some (some (sign.1, ds.1), ds.2)
    else some (none, c :: rest)

def numeral? (s : List Char) : Option (Numeral × List Char) :=
  -- the whole part is a lone zero or starts with another digit
  let sign := minus s
  let whole := digits sign.2
  if whole.1.isEmpty ∨ (whole.1.head? = some 0 ∧ 1 < whole.1.length) then none
  else
    (fraction? whole.2).bind fun fraction =>
      (exponent? fraction.2).map fun exponent =>
        (⟨sign.1, whole.1, fraction.1, exponent.1⟩, exponent.2)

theorem digits_length (s : List Char) : (digits s).1.length + (digits s).2.length = s.length := by
  simp only [digits, List.length_map]
  rw [← List.length_append, List.takeWhile_append_dropWhile]

theorem minus_length (s : List Char) : (minus s).2.length ≤ s.length := by
  unfold minus; split <;> simp

theorem exponentSign_length (s : List Char) : (exponentSign s).2.length ≤ s.length := by
  unfold exponentSign
  split
  · simp
  · exact minus_length _

theorem fraction?_length {s : List Char} {r : List Nat × List Char} (h : fraction? s = some r) :
    r.2.length ≤ s.length := by
  unfold fraction? at h
  split at h
  · next rest =>
    have := digits_length rest
    split at h
    · simp at h
    · cases h
      simp only [List.length_cons]
      omega
  · cases h
    exact Nat.le_refl _

theorem exponent?_length {s : List Char} {r : Option (Bool × List Nat) × List Char}
    (h : exponent? s = some r) : r.2.length ≤ s.length := by
  unfold exponent? at h
  split at h
  · cases h
    exact Nat.le_refl _
  · next c rest =>
    split at h
    · have := exponentSign_length rest
      have := digits_length (exponentSign rest).2
      dsimp only at h
      split at h
      · simp at h
      · cases h
        simp only [List.length_cons]
        omega
    · cases h
      exact Nat.le_refl _

theorem numeral?_length {s : List Char} {r : Numeral × List Char} (h : numeral? s = some r) :
    r.2.length < s.length := by
  have hs := minus_length s
  have hd := digits_length (minus s).2
  unfold numeral? at h
  dsimp only at h
  split at h
  · simp at h
  · next hw =>
    simp only [Option.bind_eq_some_iff, Option.map_eq_some_iff] at h
    obtain ⟨f, hf, e, he, rfl⟩ := h
    have := fraction?_length hf
    have := exponent?_length he
    have : 0 < (digits (minus s).2).1.length := by
      rcases h0 : (digits (minus s).2).1 with _ | ⟨d, ds⟩
      · simp [h0] at hw
      · simp
    dsimp only
    omega

def isGap (c : Char) : Bool := c = ' ' || c = '\t' || c = '\n' || c = '\r'

def constant? (s : List Char) : Option (Json × List Char) :=
  match s with
  | 'n' :: 'u' :: 'l' :: 'l' :: rest => some (.null, rest)
  | 't' :: 'r' :: 'u' :: 'e' :: rest => some (.bool true, rest)
  | 'f' :: 'a' :: 'l' :: 's' :: 'e' :: rest => some (.bool false, rest)
  | _ => none

def punctuation? (c : Char) : Option Token :=
  if c = '[' then some .openArray
  else if c = ']' then some .closeArray
  else if c = '\x7b' then some .openObject
  else if c = '\x7d' then some .closeObject
  else if c = ':' then some .colon
  else if c = ',' then some .comma
  else none

def scalar? (s : List Char) : Option (Json × List Char) :=
  match s with
  | '"' :: rest =>
    (stringUnits? rest).bind fun r =>
      (pairUnits? r.1).map fun chars => (.string (String.ofList chars), r.2)
  | s =>
    match constant? s with
    | some r => some r
    | none => (numeral? s).bind fun r => r.1.number?.map fun n => (.number n, r.2)

theorem constant?_length {s : List Char} {r : Json × List Char} (h : constant? s = some r) :
    r.2.length < s.length := by
  unfold constant? at h
  split at h <;> cases h <;> simp only [List.length_cons] <;> omega

theorem scalar?_length {s : List Char} {r : Json × List Char} (h : scalar? s = some r) :
    r.2.length < s.length := by
  unfold scalar? at h
  split at h
  · simp only [Option.bind_eq_some_iff, Option.map_eq_some_iff] at h
    obtain ⟨u, hu, _, _, rfl⟩ := h
    have : u.2.length < _ := stringUnits?_length hu
    simp only [List.length_cons]
    omega
  · split at h
    · next hc => exact constant?_length (hc.trans h)
    · simp only [Option.bind_eq_some_iff, Option.map_eq_some_iff] at h
      obtain ⟨u, hu, _, _, rfl⟩ := h
      exact numeral?_length hu

def tokens? : List Char → Option (List Token)
  | [] => some []
  | c :: rest =>
    if isGap c then tokens? rest
    else
      match punctuation? c with
      | some t => (tokens? rest).map (t :: ·)
      | none =>
        match h : scalar? (c :: rest) with
        | none => none
        | some r =>
          have : r.2.length < rest.length + 1 := scalar?_length h
          (tokens? r.2).map (.scalar r.1 :: ·)
termination_by s => s.length

end SolidityHost.Json
