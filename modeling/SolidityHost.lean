import SolidityHost.Abi
import SolidityHost.Assembly
import SolidityHost.Binary64
import SolidityHost.Bytecode.Link
import SolidityHost.Bytecode.Reference
import SolidityHost.Callback.EntryRun
import SolidityHost.Callback.Handlers
import SolidityHost.Callback.HostFunction
import SolidityHost.Compiler
import SolidityHost.Compiler.Input
import SolidityHost.Compiler.Standard
import SolidityHost.Dict
import SolidityHost.Generation.Descriptor
import SolidityHost.Generation.Encoding
import SolidityHost.Generation.Export
import SolidityHost.Generation.Primitives
import SolidityHost.Host.Error
import SolidityHost.Host.Heap
import SolidityHost.Host.Program
import SolidityHost.Host.Table
import SolidityHost.Host.Value
import SolidityHost.Host.Word
import SolidityHost.Json.Basic
import SolidityHost.Json.Numeral
import SolidityHost.Json.Printer
import SolidityHost.Json.Reader
import SolidityHost.Json.Record
import SolidityHost.Json.Token
import SolidityHost.Keccak
import SolidityHost.Legacy.Diagnostic
import SolidityHost.Legacy.Document
import SolidityHost.Legacy.Gas
import SolidityHost.Library.Address
import SolidityHost.Library.Map
import SolidityHost.Library.Placeholder
import SolidityHost.Native
import SolidityHost.Native.Code
import SolidityHost.Native.Memory
import SolidityHost.Native.Sample
import SolidityHost.NormalizationError
import SolidityHost.Output.Basic
import SolidityHost.Output.Decoding
import SolidityHost.Output.Encoding
import SolidityHost.Script.Action
import SolidityHost.Script.Basic
import SolidityHost.Script.Frame
import SolidityHost.Script.World
import SolidityHost.Simulated
import SolidityHost.Text.Class
import SolidityHost.Text.Search
import SolidityHost.Text.Utf8
import SolidityHost.Version.Reported
import SolidityHost.Version.Semantic
import SolidityHost.Proofs.Bytecode.Linking
import SolidityHost.Proofs.Bytecode.References
import SolidityHost.Proofs.Host.Table
import SolidityHost.Proofs.Host.Trace
import SolidityHost.Proofs.Simulated.Frame
import SolidityHost.Proofs.Simulated.EntryRun
import SolidityHost.Proofs.Compiler.Request
import SolidityHost.Proofs.Simulated.Load
import SolidityHost.Proofs.Simulated.Discipline
import SolidityHost.Proofs.Host.Log
import SolidityHost.Proofs.Simulated.CallTree
import SolidityHost.Proofs.Native.History
import SolidityHost.Proofs.Native.Failures
import SolidityHost.Proofs.Native.Handles
import SolidityHost.Proofs.Text.Utf8
import SolidityHost.Proofs.Host.Bytes
import SolidityHost.Proofs.Simulated.Text
import SolidityHost.Proofs.Simulated.Question
import SolidityHost.Proofs.Simulated.Delivery
import SolidityHost.Proofs.Simulated.Replies
import SolidityHost.Proofs.Simulated.Passage
import SolidityHost.Proofs.Json.Order
import SolidityHost.Proofs.Legacy.Outcome
import SolidityHost.Proofs.Bytecode.Keys
import SolidityHost.Proofs.Bytecode.Segments
import SolidityHost.Proofs.Bytecode.Resolution
import SolidityHost.Proofs.Bytecode.Staging
import SolidityHost.Proofs.Bytecode.Positions
import SolidityHost.Proofs.Legacy.Linked
import SolidityHost.Proofs.Compiler.Linked
import SolidityHost.Proofs.Compiler.Forwarding
import SolidityHost.Proofs.Json.Arrangement
import SolidityHost.Proofs.Json.Codec
import SolidityHost.Proofs.Json.Nesting
import SolidityHost.Proofs.Legacy.Survival
import SolidityHost.Proofs.Simulated.Handles
import SolidityHost.Proofs.Simulated.Allocation
import SolidityHost.Proofs.Native.Residue
import SolidityHost.Proofs.Legacy.Position
import SolidityHost.Proofs.Library.Flattening
import SolidityHost.Proofs.Library.Precedence
import SolidityHost.Proofs.Legacy.Regrouping
import SolidityHost.Proofs.Version.Precedence
import SolidityHost.Proofs.Abi
import SolidityHost.Proofs.Callback.Phases
import SolidityHost.Proofs.Simulated.Memory
import SolidityHost.Proofs.Json.Printable
import SolidityHost.Proofs.Legacy.GasPaths
import SolidityHost.Proofs.Assembly
import SolidityHost.Proofs.Bytecode.SinglePass
import SolidityHost.Proofs.Version.Stability

/-!
# A host for compilers of Solidity

The library models the host: modules and their function tables, entry points and callbacks, what
goes into a compiler and what is made of its output. Its theory is under `Proofs`. The modules under
`Script` and `Native.Sample` model nothing of the host. They are there so that runs can be written
down as data and compared.
-/
