import SolidityHost.Keccak
import SolidityHost.Text.Class
import SolidityHost.Text.Utf8

/-!
# Placeholders

Where a library address belongs, unlinked bytecode holds forty characters: 36 between two
underscores on each side. The label of a library shows its name, cut or filled up with underscores;
its hashed placeholder shows the start of the digest of the name.
-/

set_option autoImplicit false

namespace SolidityHost

structure Placeholder where
  body : List Char
  length_body : body.length = 36
  deriving DecidableEq

namespace Placeholder

def text (p : Placeholder) : List Char := '_' :: '_' :: (p.body ++ ['_', '_'])

def toString (p : Placeholder) : String := String.ofList p.text

@[simp] theorem length_text (p : Placeholder) : p.text.length = 40 := by
  simp [text, p.length_body]

def label (name : String) : Placeholder where
  body := name.toList.take 36 ++ List.replicate (36 - (name.toList.take 36).length) '_'
  length_body := by
    simp only [List.length_append, List.length_replicate, List.length_take]
    omega

def hashDigits (name : String) : List Char :=
  (Text.hexOfBytes (Keccak.digest (Utf8.encode name))).take 34

theorem length_hexOfBytes (bytes : List UInt8) :
    (Text.hexOfBytes bytes).length = 2 * bytes.length := by
  induction bytes with
  | nil => rfl
  | cons b rest ih =>
    have : Text.hexOfBytes (b :: rest) =
        Text.hexDigit (b.toNat / 16) :: Text.hexDigit (b.toNat % 16) :: Text.hexOfBytes rest := rfl
    rw [this, List.length_cons, List.length_cons, ih, List.length_cons]
    omega

theorem length_hashDigits (name : String) : (hashDigits name).length = 34 := by
  simp [hashDigits, length_hexOfBytes, Keccak.length_digest]

def hashed (name : String) : Placeholder where
  body := '$' :: (hashDigits name ++ ['$'])
  length_body := by simp [length_hashDigits]

/-- A placeholder holds at least the four underscores around its body. -/
theorem four_le_count_text (p : Placeholder) : 4 ≤ p.text.count '_' := by
  simp only [text, List.count_cons_self, List.count_append, List.count_nil]
  omega

end Placeholder

end SolidityHost
