/-!
# UTF-8

Encoding of text, and a decoder that reads one byte at a time. The decoder stands either between
characters or inside one; inside, it knows which range the next byte must lie in. Strict decoding
reports where the first fault starts and how many bytes it spans; lenient decoding writes one
replacement character for each fault and goes on.
-/

set_option autoImplicit false

namespace SolidityHost.Utf8

def encode (s : String) : List UInt8 := s.toList.flatMap String.utf8EncodeChar

def width (s : String) : Nat := (encode s).length

inductive State where
  | boundary
  -- inside a character: `owed` bytes are missing, the next lies between `low` and `high`, the bits
  -- read so far are `code`, and `seen` bytes have been read
  | inside (owed : Nat) (low high : UInt8) (code seen : Nat)
  deriving DecidableEq, Repr

inductive Step where
  | char (c : Char)
  | more (state : State)
  | refuse
  deriving DecidableEq, Repr

def lead (b : UInt8) : Step :=
  if b < 0x80 then .char (Char.ofNat b.toNat)
  else if b < 0xC2 then .refuse
  else if b < 0xE0 then .more (.inside 1 0x80 0xBF (b.toNat - 0xC0) 1)
  else if b = 0xE0 then .more (.inside 2 0xA0 0xBF 0 1)
  else if b = 0xED then .more (.inside 2 0x80 0x9F 0xD 1)
  else if b < 0xF0 then .more (.inside 2 0x80 0xBF (b.toNat - 0xE0) 1)
  else if b = 0xF0 then .more (.inside 3 0x90 0xBF 0 1)
  else if b < 0xF4 then .more (.inside 3 0x80 0xBF (b.toNat - 0xF0) 1)
  else if b = 0xF4 then .more (.inside 3 0x80 0x8F 4 1)
  else .refuse

def step : State → UInt8 → Step
  | .boundary, b => lead b
  | .inside owed low high code seen, b =>
    if low ≤ b ∧ b ≤ high then
      let code := code * 64 + (b.toNat - 0x80)
      if owed ≤ 1 then .char (Char.ofNat code)
      else .more (.inside (owed - 1) 0x80 0xBF code (seen + 1))
    else .refuse

def State.seen : State → Nat
  | .boundary => 0
  | .inside _ _ _ _ n => n

inductive Fault where
  | invalid (length start : Nat)
  -- the bytes end inside the character that begins at `start`
  | incomplete (start : Nat)
  deriving DecidableEq, Repr

def Fault.message : Fault → String
  | .invalid length start =>
    "invalid utf-8 sequence of " ++ toString length ++ " bytes from index " ++ toString start
  | .incomplete start => "incomplete utf-8 byte sequence from index " ++ toString start

def decodeFrom : State → Nat → List UInt8 → Except Fault (List Char)
  | .boundary, _, [] => .ok []
  | .inside _ _ _ _ seen, index, [] => .error (.incomplete (index - seen))
  | state, index, b :: rest =>
    match step state b with
    | .char c => (decodeFrom .boundary (index + 1) rest).map (c :: ·)
    | .more state => decodeFrom state (index + 1) rest
    | .refuse => .error (.invalid (max state.seen 1) (index - state.seen))

def decode (bytes : List UInt8) : Except Fault String :=
  (decodeFrom .boundary 0 bytes).map String.ofList

def replacement : Char := Char.ofNat 0xFFFD

/-- Decodes with one replacement character for each fault. A byte that breaks off a longer
character is read again as the start of the next one. -/
def decodeLenientFrom : State → List UInt8 → List Char
  | .boundary, [] => []
  | .inside .., [] => [replacement]
  | state, b :: rest =>
    match step state b with
    | .char c => c :: decodeLenientFrom .boundary rest
    | .more state => decodeLenientFrom state rest
    | .refuse =>
      match state, lead b with
      | .inside .., .char c => replacement :: c :: decodeLenientFrom .boundary rest
      | .inside .., .more state => replacement :: decodeLenientFrom state rest
      | .inside .., .refuse => replacement :: replacement :: decodeLenientFrom .boundary rest
      | .boundary, _ => replacement :: decodeLenientFrom .boundary rest

def decodeLenient (bytes : List UInt8) : List Char := decodeLenientFrom .boundary bytes

example : decode [0x61, 0xC3, 0xA9] = .ok "aé" := rfl
example : decode [0x61, 0xFF] = .error (.invalid 1 1) := rfl
example : decode [0xE2, 0x82, 0x41] = .error (.invalid 2 0) := rfl
example : decode [0x61, 0xE2, 0x82] = .error (.incomplete 1) := rfl
example : decodeLenient [0xE2, 0x82, 0x41, 0xC3] = [replacement, 'A', replacement] := by decide

end SolidityHost.Utf8
