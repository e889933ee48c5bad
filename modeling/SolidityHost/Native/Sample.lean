import SolidityHost.Native.Code
import SolidityHost.Text.Search

/-!
# Sample libraries

Two small native libraries to drive a native module with. They are no part of the host: they stand
for a compiler where runs are compared, and where a statement needs a library to try. One speaks the kinded protocol: its
compile entry point takes `kind:data` as its input and makes one callback. The other speaks the
import-only protocol under the names of an old generation, and once more under names with an
underscore in front.
-/

set_option autoImplicit false

namespace SolidityHost.Native.Sample

def arg (args : List Word) (i : Nat) : Word := args.getD i 0

def byte (c : Char) : UInt8 := UInt8.ofNat c.toNat

def newOuts : Code (Word × Word) := do
  let p ← Code.allocate 16
  pure (p, p + 8)

def answer (contents error : Word) : Code (List UInt8) := do
  let c ← Code.readWord contents
  let e ← Code.readWord error
  if c ≠ 0 then
    let text ← Code.readBytes c
    pure (Utf8.encode "contents:" ++ text)
  else if e ≠ 0 then
    let text ← Code.readBytes e
    pure (Utf8.encode "error:" ++ text)
  else pure (Utf8.encode "none")

def splitAtColon? (input : List UInt8) (p : Word) : Option (List UInt8 × Word) :=
  let kind := input.takeWhile (· ≠ byte ':')
  if kind.length < input.length then some (kind, p + UInt64.ofNat (kind.length + 1)) else none

def malloc : String × (List Word → Code Word) :=
  ("malloc", fun args => Code.allocate (arg args 0).toNat)

def resetCounter : Word := UInt64.ofNat Memory.base

def compileKinded (args : List Word) : Code Word := do
  let p := arg args 0
  let input ← Code.readBytes p
  let marked := input.head? = some (byte '!')
  let context := if marked then 0x10 else arg args 2
  let p := if marked then p + 1 else p
  match splitAtColon? (if marked then input.drop 1 else input) p with
  | none => Code.newText "error:malformed request"
  | some (kind, data) =>
    let kind ← Code.newBytes kind
    let (contents, error) ← newOuts
    Code.callAddress (arg args 1) [context, kind, data, contents, error]
    let text ← answer contents error
    Code.newBytes text

def kinded (counter : String) : Library where
  memory := .ofSize 8
  entries := [
    ("solidity_version", fun _ => Code.newText "0.8.4+commit.c7e474f2"),
    ("solidity_license", fun _ => Code.newText "GPL-3.0"),
    ("solidity_alloc", fun args => Code.allocate (arg args 0).toNat),
    ("solidity_reset", fun _ => do
      let n ← Code.readWord resetCounter
      Code.write resetCounter (n + 1).toBytes
      pure 0),
    (counter, fun _ => Code.readWord resetCounter),
    ("solidity_compile", compileKinded),
    malloc]

def kept : Word := UInt64.ofNat Memory.base

def askFor (callback path : Word) : Code (List UInt8) := do
  let (contents, error) ← newOuts
  Code.callAddress callback [path, contents, error]
  answer contents error

def pieces : List UInt8 → List (List UInt8)
  | [] => [[]]
  | b :: rest =>
    if b = byte ';' then [] :: pieces rest
    else
      match pieces rest with
      | [] => [[b]]
      | first :: more => (b :: first) :: more

def askForAll (callback : Word) : List (List UInt8) → Code (List UInt8)
  | [] => pure []
  | path :: rest => do
    let p ← Code.newBytes path
    let text ← askFor callback p
    let others ← askForAll callback rest
    pure (text ++ byte '|' :: others)

def importEach (args : List Word) : Code Word := do
  let input ← Code.readBytes (arg args 0)
  let text ← askForAll (arg args 1) (pieces input)
  Code.newBytes text

def errorDocument (optimize : Word) (text : List UInt8) : List UInt8 :=
  Utf8.encode (if optimize = 0 then "\x7b\"errors\":[\"O0 " else "\x7b\"errors\":[\"O1 ") ++ text ++
    Utf8.encode "\"]\x7d"

def compileSingle (args : List Word) : Code Word := do
  let input ← Code.readBytes (arg args 0)
  Code.newBytes (errorDocument (arg args 1) input)

def compileMulti (args : List Word) : Code Word := do
  let input ← Code.readBytes (arg args 0)
  Code.newBytes (Utf8.encode (if arg args 1 = 0 then "\x7b\"optimize\":0,\"input\":"
    else "\x7b\"optimize\":1,\"input\":") ++ input ++ Utf8.encode "\x7d")

def compileCallback (args : List Word) : Code Word := do
  let path ← Code.newText "lib.sol"
  let text ← askFor (arg args 2) path
  Code.newBytes (errorDocument (arg args 1) text)

def remember (args : List Word) : Code Word := do
  Code.write kept (arg args 0).toBytes
  pure 1

def askKept (args : List Word) : Code Word := do
  let callback ← Code.readWord kept
  let text ← askFor callback (arg args 0)
  Code.newBytes text

def weighted : List Word → Word
  | [] => 0
  | a :: rest => a + 10 * weighted rest

def sumOf (count : Nat) (args : List Word) : Code Word :=
  pure (weighted ((List.range count).map (arg args)))

def importOnly : Library where
  memory := .ofSize 8
  entries := [
    ("version", fun _ => Code.newText "0.4.11+commit.68ef5810"),
    ("license", fun _ => Code.newText "native license"),
    ("compileJSON", compileSingle),
    ("compileJSONMulti", compileMulti),
    ("compileJSONCallback", compileCallback),
    ("importEach", importEach),
    ("remember", remember),
    ("recall", askKept),
    ("returnsNull", fun _ => pure 0),
    ("sum0", fun _ => pure 42),
    ("sum1", fun args => pure (arg args 0 + 1)),
    ("sum2", sumOf 2),
    ("sum3", sumOf 3),
    ("sum4", sumOf 4),
    ("sum5", sumOf 5),
    ("_solidity_version", fun _ => Code.newText "0.5.17+commit.d19bba13"),
    ("_solidity_license", fun _ => Code.newText "prefixed license"),
    ("_solidity_alloc", fun args => Code.allocate (arg args 0).toNat),
    ("_solidity_compile", importEach),
    malloc]

end SolidityHost.Native.Sample
