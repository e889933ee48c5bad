/-!
# Keccak-256

The sponge over 25 lanes of 64 bits with a rate of 136 bytes and the padding byte `0x01`.
The digest has 32 bytes.
-/

set_option autoImplicit false

namespace SolidityHost.Keccak

/-- Lane `(x, y)` stands at index `x + 5 * y`. -/
abbrev State := Vector UInt64 25

def lane (s : State) (x y : Nat) : UInt64 :=
  s.get ⟨x % 5 + 5 * (y % 5), by omega⟩

def rotate (w : UInt64) (n : Nat) : UInt64 :=
  w <<< UInt64.ofNat n ||| w >>> UInt64.ofNat (64 - n)

def tabulate (f : Nat → Nat → UInt64) : State := Vector.ofFn fun i => f (i.val % 5) (i.val / 5)

def offsets : List Nat :=
  [0, 1, 62, 28, 27, 36, 44, 6, 55, 20, 3, 10, 43, 25, 39, 41, 45, 15, 21, 8, 18, 2, 61, 56, 14]

def roundConstants : List UInt64 :=
  [0x0000000000000001, 0x0000000000008082, 0x800000000000808A, 0x8000000080008000,
   0x000000000000808B, 0x0000000080000001, 0x8000000080008081, 0x8000000000008009,
   0x000000000000008A, 0x0000000000000088, 0x0000000080008009, 0x000000008000000A,
   0x000000008000808B, 0x800000000000008B, 0x8000000000008089, 0x8000000000008003,
   0x8000000000008002, 0x8000000000000080, 0x000000000000800A, 0x800000008000000A,
   0x8000000080008081, 0x8000000000008080, 0x0000000080000001, 0x8000000080008008]

def theta (s : State) : State :=
  let parity : Vector UInt64 5 := Vector.ofFn fun x =>
    lane s x.val 0 ^^^ lane s x.val 1 ^^^ lane s x.val 2 ^^^ lane s x.val 3 ^^^ lane s x.val 4
  let column (x : Nat) : UInt64 := parity.get ⟨x % 5, Nat.mod_lt _ (by decide)⟩
  tabulate fun x y => lane s x y ^^^ column (x + 4) ^^^ rotate (column (x + 1)) 1

def rhoPi (s : State) : State :=
  tabulate fun x y =>
    let source := (x + 3 * y) % 5
    rotate (lane s source x) (offsets.getD (source + 5 * x) 0)

def chi (s : State) : State :=
  tabulate fun x y => lane s x y ^^^ (~~~(lane s (x + 1) y) &&& lane s (x + 2) y)

def round (s : State) (constant : UInt64) : State :=
  let s := chi (rhoPi (theta s))
  s.set 0 (s[0] ^^^ constant)

def permute (s : State) : State := roundConstants.foldl round s

def rate : Nat := 136

def padding (length : Nat) : List UInt8 :=
  -- a one bit after the message, and a one bit at the end of the block
  let missing := rate - length % rate
  if missing = 1 then [0x81] else 0x01 :: List.replicate (missing - 2) 0 ++ [0x80]

def wordOfBytes (bytes : List UInt8) : UInt64 :=
  bytes.foldr (fun b w => w <<< 8 ||| b.toUInt64) 0

def bytesOfWord (w : UInt64) : List UInt8 :=
  (List.range 8).map fun i => (w >>> UInt64.ofNat (8 * i)).toUInt8

def absorb (s : State) (block : List UInt8) : State :=
  permute (tabulate fun x y =>
    let i := x + 5 * y
    if i < rate / 8 then lane s x y ^^^ wordOfBytes ((block.drop (8 * i)).take 8) else lane s x y)

def digest (message : List UInt8) : List UInt8 :=
  let padded := message ++ padding message.length
  let blocks := (List.range (padded.length / rate)).map fun i => (padded.drop (rate * i)).take rate
  let s := blocks.foldl absorb (Vector.replicate 25 0)
  (s.toList.take 4).flatMap bytesOfWord

theorem length_digest (message : List UInt8) : (digest message).length = 32 := by
  have h : ∀ (ws : List UInt64), (ws.flatMap bytesOfWord).length = 8 * ws.length := by
    intro ws
    induction ws with
    | nil => rfl
    | cons w ws ih =>
      rw [List.flatMap_cons, List.length_append, ih]
      simp [bytesOfWord]
      omega
  simp [digest, h]

end SolidityHost.Keccak
