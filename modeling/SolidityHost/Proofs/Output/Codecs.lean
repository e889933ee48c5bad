import SolidityHost.Output.Decoding
import SolidityHost.Proofs.Json.Codec

/-!
# Records of the output

Each record of the output is sound if its integers fit a word and no value that is kept as JSON is
null where null stands for no value. What is read is sound, what is written for it keeps the known
fields, and sound records are read back from what is written for them.
-/

set_option autoImplicit false

namespace SolidityHost

open Json

namespace Severity

theorem encode_of_lookup {s : String} {severity : Severity}
    (h : List.lookup s [("error", Severity.error), ("warning", .warning)] = some severity) :
    encode severity = .string s := by
  obtain ⟨before, after, hnames, -⟩ := List.lookup_eq_some_iff.1 h
  have hmem : (s, severity) ∈ [("error", Severity.error), ("warning", .warning)] := by
    rw [hnames]
    exact List.mem_append_right _ List.mem_cons_self
  rcases List.mem_cons.1 hmem with heq | hmem
  · obtain ⟨rfl, rfl⟩ := Prod.mk.inj heq
    rfl
  · obtain ⟨rfl, rfl⟩ := Prod.mk.inj (List.mem_singleton.1 hmem)
    rfl

theorem codec : Codec decode encode (fun _ => True) KeepsName where
  reads v severity _ h := by
    unfold decode nameOf at h
    split at h
    · next s _ => exact ⟨trivial, s, encode_of_lookup h, .inl rfl⟩
    · next s _ => exact ⟨trivial, s, encode_of_lookup h, .inr rfl⟩
    · contradiction
  rereads f hf severity _ := by
    cases severity <;> rw [encode, hf.string] <;> rfl

end Severity

namespace SourceLocation

structure Sound (l : SourceLocation) : Prop where
  start : FitsSigned l.start
  stop : FitsSigned l.stop

def known : List Known :=
  [⟨"file", .required, Eq⟩, ⟨"start", .required, Eq⟩, ⟨"end", .required, Eq⟩]

def parts (l : SourceLocation) : List (String × Option Json) :=
  [("file", some (.string l.file)), ("start", some (.number (Number.ofInt l.start))),
    ("end", some (.number (Number.ofInt l.stop)))]

theorem encode_eq (l : SourceLocation) : l.encode = .object (written l.parts) := rfl

theorem codec : Codec decode encode Sound (KeepsRecord known) where
  reads v l hv h := by
    simp only [decode, Option.bind_eq_bind, Option.bind_eq_some_iff] at h
    obtain ⟨r, hr, file, hfile, start, hstart, stop, hstop, hl⟩ := h
    obtain rfl := Option.some.inj hl
    have hin := hv.record hr
    obtain ⟨-, kfile⟩ := codec_string.reads_required "file" (hin _ _) hfile
    obtain ⟨sstart, kstart⟩ := codec_signed.reads_required "start" (hin _ _) hstart
    obtain ⟨sstop, kstop⟩ := codec_signed.reads_required "end" (hin _ _) hstop
    exact ⟨⟨sstart, sstop⟩, r, _, hr, encode_eq _,
      .cons kfile (.cons kstart (.cons kstop (.nil _)))⟩
  rereads f hf l h := by
    obtain ⟨r, hr, hfield⟩ := hf.record_written (by simp [parts] : (l.parts.map (·.1)).Nodup) 3
    have hfile := codec_string.rereads_required hf (hfield 0 "file") trivial
    have hstart := codec_signed.rereads_required hf (hfield 1 "start") h.start
    have hstop := codec_signed.rereads_required hf (hfield 2 "end") h.stop
    rw [encode_eq, decode, hr]
    simp only [Option.bind_eq_bind, Option.bind_some, hfile, hstart, hstop]
    rfl

end SourceLocation

namespace Diagnostic

def Sound (d : Diagnostic) : Prop := ∀ l ∈ d.location, l.Sound

def known : List Known :=
  [⟨"type", .required, Eq⟩, ⟨"component", .required, Eq⟩, ⟨"severity", .required, KeepsName⟩,
    ⟨"message", .required, Eq⟩, ⟨"formattedMessage", .required, Eq⟩,
    ⟨"sourceLocation", .optional, KeepsRecord SourceLocation.known⟩]

def parts (d : Diagnostic) : List (String × Option Json) :=
  [("type", some (.string d.kind)), ("component", some (.string d.component)),
    ("severity", some d.severity.encode), ("message", some (.string d.message)),
    ("formattedMessage", some (.string d.formatted)),
    ("sourceLocation", d.location.map SourceLocation.encode)]

theorem encode_eq (d : Diagnostic) : d.encode = .object (written d.parts) := by
  rw [encode, parts]
  cases d.location <;> rfl

theorem codec : Codec decode encode Sound (KeepsRecord known) where
  reads v d hv h := by
    simp only [decode, Option.bind_eq_bind, Option.bind_eq_some_iff] at h
    obtain ⟨r, hr, kind, hkind, component, hcomponent, severity, hseverity, message, hmessage,
      formatted, hformatted, location, hlocation, hd⟩ := h
    obtain rfl := Option.some.inj hd
    have hin := hv.record hr
    obtain ⟨-, kkind⟩ := codec_string.reads_required "type" (hin _ _) hkind
    obtain ⟨-, kcomponent⟩ := codec_string.reads_required "component" (hin _ _) hcomponent
    obtain ⟨-, kseverity⟩ := Severity.codec.reads_required "severity" (hin _ _) hseverity
    obtain ⟨-, kmessage⟩ := codec_string.reads_required "message" (hin _ _) hmessage
    obtain ⟨-, kformatted⟩ := codec_string.reads_required "formattedMessage" (hin _ _) hformatted
    obtain ⟨slocation, klocation⟩ :=
      SourceLocation.codec.reads_optional "sourceLocation" (hin _ _) hlocation
    exact ⟨slocation, r, _, hr, encode_eq _, .cons kkind (.cons kcomponent (.cons kseverity
      (.cons kmessage (.cons kformatted (.cons klocation (.nil _))))))⟩
  rereads f hf d h := by
    obtain ⟨r, hr, hfield⟩ := hf.record_written (by simp [parts] : (d.parts.map (·.1)).Nodup) 6
    have hkind := codec_string.rereads_required hf (hfield 0 "type") trivial
    have hcomponent := codec_string.rereads_required hf (hfield 1 "component") trivial
    have hseverity := Severity.codec.rereads_required hf (hfield 2 "severity") trivial
    have hmessage := codec_string.rereads_required hf (hfield 3 "message") trivial
    have hformatted := codec_string.rereads_required hf (hfield 4 "formattedMessage") trivial
    have hlocation := SourceLocation.codec.rereads_optional hf (hfield 5 "sourceLocation") rfl h
    rw [encode_eq, decode, hr]
    simp only [Option.bind_eq_bind, Option.bind_some, hkind, hcomponent, hseverity, hmessage,
      hformatted, hlocation]
    rfl

end Diagnostic

namespace SourceOutput

structure Sound (s : SourceOutput) : Prop where
  id : ∀ n ∈ s.id, n < 0x10000000000000000
  ast : Raw s.ast
  legacyAst : Raw s.legacyAst

def known : List Known :=
  [⟨"id", .optional, Eq⟩, ⟨"ast", .optional, Eq⟩, ⟨"legacyAST", .optional, Eq⟩]

def parts (s : SourceOutput) : List (String × Option Json) :=
  [("id", s.id.map Json.ofNat), ("ast", s.ast), ("legacyAST", s.legacyAst)]

theorem encode_eq (s : SourceOutput) : s.encode = .object (written s.parts) := by
  rw [encode, parts]
  cases s.id <;> cases s.ast <;> cases s.legacyAst <;> rfl

def withoutNullTree (s : SourceOutput) : SourceOutput :=
  { s with legacyAst := s.legacyAst.filter fun j => !j.isNull }

theorem withoutNullTree_eq_self_iff {s : SourceOutput} :
    s.withoutNullTree = s ↔ s.legacyAst ≠ some .null := by
  rw [← filter_isNull_eq_self_iff]
  exact ⟨congrArg legacyAst, fun h => by rw [withoutNullTree, h]⟩

structure Storable (s : SourceOutput) : Prop where
  id : ∀ n ∈ s.id, n < 0x10000000000000000
  ast : Raw s.ast
  legacyAst : ∀ j ∈ s.legacyAst, j.InOrder

theorem Sound.storable {s : SourceOutput} (h : s.Sound) : s.Storable :=
  ⟨h.id, h.ast, fun j hj => (h.legacyAst j hj).1⟩

theorem reread {f : Json → Json} {s : SourceOutput} (hf : Arrangement f) (h : s.Storable) :
    decode (f s.encode) = some s.withoutNullTree := by
  obtain ⟨r, hr, hfield⟩ := hf.record_written (by simp [parts] : (s.parts.map (·.1)).Nodup) 3
  have hid := codec_natural.rereads_optional hf (hfield 0 "id") rfl h.id
  have hast := rereads_raw hf (hfield 1 "ast") h.ast
  have hlegacyAst := rereads_nullable hf (hfield 2 "legacyAST") h.legacyAst
  rw [encode_eq, decode, hr]
  simp only [Option.bind_eq_bind, Option.bind_some, hid, hast, hlegacyAst]
  rfl

theorem codec : Codec decode encode Sound (KeepsRecord known) where
  reads v s hv h := by
    simp only [decode, Option.bind_eq_bind, Option.bind_eq_some_iff] at h
    obtain ⟨r, hr, id, hid, ast, hast, legacyAst, hlegacyAst, hs⟩ := h
    obtain rfl := Option.some.inj hs
    have hin := hv.record hr
    obtain ⟨sid, kid⟩ := codec_natural.reads_optional "id" (hin _ _) hid
    obtain ⟨sast, kast⟩ := reads_raw "ast" (hin _ _) hast
    obtain ⟨slegacyAst, klegacyAst⟩ := reads_raw "legacyAST" (hin _ _) hlegacyAst
    exact ⟨⟨sid, sast, slegacyAst⟩, r, _, hr, encode_eq _,
      .cons kid (.cons kast (.cons klegacyAst (.nil _)))⟩
  rereads f hf s h := by
    rw [reread hf h.storable, withoutNullTree_eq_self_iff.2 h.legacyAst.ne_null]

end SourceOutput

namespace LinkReference

structure Sound (r : LinkReference) : Prop where
  start : r.start < 0x10000000000000000
  length : r.length < 0x10000000000000000

def known : List Known := [⟨"start", .required, Eq⟩, ⟨"length", .required, Eq⟩]

def parts (r : LinkReference) : List (String × Option Json) :=
  [("start", some (.ofNat r.start)), ("length", some (.ofNat r.length))]

theorem encode_eq (r : LinkReference) : r.encode = .object (written r.parts) := rfl

theorem codec : Codec decode encode Sound (KeepsRecord known) where
  reads v l hv h := by
    simp only [decode, Option.bind_eq_bind, Option.bind_eq_some_iff] at h
    obtain ⟨r, hr, start, hstart, length, hlength, hl⟩ := h
    obtain rfl := Option.some.inj hl
    have hin := hv.record hr
    obtain ⟨sstart, kstart⟩ := codec_natural.reads_required "start" (hin _ _) hstart
    obtain ⟨slength, klength⟩ := codec_natural.reads_required "length" (hin _ _) hlength
    exact ⟨⟨sstart, slength⟩, r, _, hr, encode_eq _, .cons kstart (.cons klength (.nil _))⟩
  rereads f hf l h := by
    obtain ⟨r, hr, hfield⟩ := hf.record_written (by simp [parts] : (l.parts.map (·.1)).Nodup) 2
    have hstart := codec_natural.rereads_required hf (hfield 0 "start") h.start
    have hlength := codec_natural.rereads_required hf (hfield 1 "length") h.length
    rw [encode_eq, decode, hr]
    simp only [Option.bind_eq_bind, Option.bind_some, hstart, hlength]
    rfl

end LinkReference

namespace LinkReferences

def Sound (refs : LinkReferences) : Prop := refs.All fun rs => ∀ r ∈ rs, r.Sound

def Keeps : Json → Json → Prop := KeepsDict (KeepsList (KeepsRecord LinkReference.known))

theorem codec : Codec decodeReferences encodeReferences Sound Keeps := LinkReference.codec.list.dict

end LinkReferences

namespace BytecodeOutput

structure Sound (b : BytecodeOutput) : Prop where
  opcodes : Raw b.opcodes
  sourceMap : Raw b.sourceMap
  linkReferences : ∀ refs ∈ b.linkReferences, refs.Sound
  generatedSources : Raw b.generatedSources

def known : List Known :=
  [⟨"object", .optional, Eq⟩, ⟨"opcodes", .optional, Eq⟩, ⟨"sourceMap", .optional, Eq⟩,
    ⟨"linkReferences", .optional, LinkReferences.Keeps⟩, ⟨"generatedSources", .optional, Eq⟩]

def parts (b : BytecodeOutput) : List (String × Option Json) :=
  [("object", b.object.map .string), ("opcodes", b.opcodes), ("sourceMap", b.sourceMap),
    ("linkReferences", b.linkReferences.map encodeReferences),
    ("generatedSources", b.generatedSources)]

theorem encode_eq (b : BytecodeOutput) : b.encode = .object (written b.parts) := by
  rw [encode, parts]
  cases b.object <;> cases b.opcodes <;> cases b.sourceMap <;> cases b.linkReferences <;>
    cases b.generatedSources <;> rfl

theorem codec : Codec decode encode Sound (KeepsRecord known) where
  reads v b hv h := by
    simp only [decode, Option.bind_eq_bind, Option.bind_eq_some_iff] at h
    obtain ⟨r, hr, object, hobject, opcodes, hopcodes, sourceMap, hsourceMap, refs, hrefs,
      generated, hgenerated, hb⟩ := h
    obtain rfl := Option.some.inj hb
    have hin := hv.record hr
    obtain ⟨-, kobject⟩ := codec_string.reads_optional "object" (hin _ _) hobject
    obtain ⟨sopcodes, kopcodes⟩ := reads_raw "opcodes" (hin _ _) hopcodes
    obtain ⟨ssourceMap, ksourceMap⟩ := reads_raw "sourceMap" (hin _ _) hsourceMap
    obtain ⟨srefs, krefs⟩ := LinkReferences.codec.reads_optional "linkReferences" (hin _ _) hrefs
    obtain ⟨sgenerated, kgenerated⟩ := reads_raw "generatedSources" (hin _ _) hgenerated
    exact ⟨⟨sopcodes, ssourceMap, srefs, sgenerated⟩, r, _, hr, encode_eq _,
      .cons kobject (.cons kopcodes (.cons ksourceMap (.cons krefs (.cons kgenerated (.nil _)))))⟩
  rereads f hf b h := by
    obtain ⟨r, hr, hfield⟩ := hf.record_written (by simp [parts] : (b.parts.map (·.1)).Nodup) 5
    have hobject := codec_string.rereads_optional hf (hfield 0 "object") rfl fun _ _ => trivial
    have hopcodes := rereads_raw hf (hfield 1 "opcodes") h.opcodes
    have hsourceMap := rereads_raw hf (hfield 2 "sourceMap") h.sourceMap
    have hrefs :=
      LinkReferences.codec.rereads_optional hf (hfield 3 "linkReferences") rfl h.linkReferences
    have hgenerated := rereads_raw hf (hfield 4 "generatedSources") h.generatedSources
    rw [encode_eq, decode, hr]
    simp only [Option.bind_eq_bind, Option.bind_some, hobject, hopcodes, hsourceMap, hrefs,
      hgenerated]
    rfl

theorem sound_empty : empty.Sound := ⟨nofun, nofun, nofun, nofun⟩

end BytecodeOutput

namespace CreationCosts

structure Sound (c : CreationCosts) : Prop where
  codeDeposit : c.codeDeposit.InOrder
  execution : c.execution.InOrder

def known : List Known := [⟨"codeDepositCost", .required, Eq⟩, ⟨"executionCost", .required, Eq⟩]

def parts (c : CreationCosts) : List (String × Option Json) :=
  [("codeDepositCost", some c.codeDeposit), ("executionCost", some c.execution)]

theorem encode_eq (c : CreationCosts) : c.encode = .object (written c.parts) := rfl

theorem codec : Codec decode encode Sound (KeepsRecord known) where
  reads v c hv h := by
    simp only [decode, Option.bind_eq_bind, Option.bind_eq_some_iff] at h
    obtain ⟨r, hr, codeDeposit, hcodeDeposit, execution, hexecution, hc⟩ := h
    obtain rfl := Option.some.inj hc
    have hin := hv.record hr
    obtain ⟨scodeDeposit, kcodeDeposit⟩ :=
      codec_raw.reads_required "codeDepositCost" (hin _ _) hcodeDeposit
    obtain ⟨sexecution, kexecution⟩ :=
      codec_raw.reads_required "executionCost" (hin _ _) hexecution
    exact ⟨⟨scodeDeposit, sexecution⟩, r, _, hr, encode_eq _,
      .cons kcodeDeposit (.cons kexecution (.nil _))⟩
  rereads f hf c h := by
    obtain ⟨r, hr, hfield⟩ := hf.record_written (by simp [parts] : (c.parts.map (·.1)).Nodup) 2
    have hcodeDeposit := codec_raw.rereads_required hf (hfield 0 "codeDepositCost") h.codeDeposit
    have hexecution := codec_raw.rereads_required hf (hfield 1 "executionCost") h.execution
    rw [encode_eq, decode, hr]
    simp only [Option.bind_eq_bind, Option.bind_some, hcodeDeposit, hexecution]
    rfl

end CreationCosts

namespace GasEstimates

structure Sound (g : GasEstimates) : Prop where
  creation : ∀ c ∈ g.creation, c.Sound
  external : Raw g.external
  internal : Raw g.internal

def known : List Known :=
  [⟨"creation", .optional, KeepsRecord CreationCosts.known⟩, ⟨"external", .optional, Eq⟩,
    ⟨"internal", .optional, Eq⟩]

def parts (g : GasEstimates) : List (String × Option Json) :=
  [("creation", g.creation.map CreationCosts.encode), ("external", g.external),
    ("internal", g.internal)]

theorem encode_eq (g : GasEstimates) : g.encode = .object (written g.parts) := by
  rw [encode, parts]
  cases g.creation <;> cases g.external <;> cases g.internal <;> rfl

theorem codec : Codec decode encode Sound (KeepsRecord known) where
  reads v g hv h := by
    simp only [decode, Option.bind_eq_bind, Option.bind_eq_some_iff] at h
    obtain ⟨r, hr, creation, hcreation, external, hexternal, internal, hinternal, hg⟩ := h
    obtain rfl := Option.some.inj hg
    have hin := hv.record hr
    obtain ⟨screation, kcreation⟩ :=
      CreationCosts.codec.reads_optional "creation" (hin _ _) hcreation
    obtain ⟨sexternal, kexternal⟩ := reads_raw "external" (hin _ _) hexternal
    obtain ⟨sinternal, kinternal⟩ := reads_raw "internal" (hin _ _) hinternal
    exact ⟨⟨screation, sexternal, sinternal⟩, r, _, hr, encode_eq _,
      .cons kcreation (.cons kexternal (.cons kinternal (.nil _)))⟩
  rereads f hf g h := by
    obtain ⟨r, hr, hfield⟩ := hf.record_written (by simp [parts] : (g.parts.map (·.1)).Nodup) 3
    have hcreation := CreationCosts.codec.rereads_optional hf (hfield 0 "creation") rfl h.creation
    have hexternal := rereads_raw hf (hfield 1 "external") h.external
    have hinternal := rereads_raw hf (hfield 2 "internal") h.internal
    rw [encode_eq, decode, hr]
    simp only [Option.bind_eq_bind, Option.bind_some, hcreation, hexternal, hinternal]
    rfl

theorem sound_empty : empty.Sound := ⟨nofun, nofun, nofun⟩

end GasEstimates

namespace EvmOutput

structure Sound (e : EvmOutput) : Prop where
  legacyAssembly : Raw e.legacyAssembly
  bytecode : e.bytecode.Sound
  deployedBytecode : e.deployedBytecode.Sound
  methodIdentifiers : Raw e.methodIdentifiers
  gasEstimates : e.gasEstimates.Sound

def known : List Known :=
  [⟨"assembly", .optional, Eq⟩, ⟨"legacyAssembly", .optional, Eq⟩,
    ⟨"bytecode", .defaulted BytecodeOutput.empty.encode, KeepsRecord BytecodeOutput.known⟩,
    ⟨"deployedBytecode", .defaulted BytecodeOutput.empty.encode,
      KeepsRecord BytecodeOutput.known⟩,
    ⟨"methodIdentifiers", .optional, Eq⟩,
    ⟨"gasEstimates", .defaulted GasEstimates.empty.encode, KeepsRecord GasEstimates.known⟩]

def parts (e : EvmOutput) : List (String × Option Json) :=
  [("assembly", e.assembly.map .string), ("legacyAssembly", e.legacyAssembly),
    ("bytecode", some e.bytecode.encode), ("deployedBytecode", some e.deployedBytecode.encode),
    ("methodIdentifiers", e.methodIdentifiers), ("gasEstimates", some e.gasEstimates.encode)]

theorem encode_eq (e : EvmOutput) : e.encode = .object (written e.parts) := by
  rw [encode, parts]
  cases e.assembly <;> cases e.legacyAssembly <;> cases e.methodIdentifiers <;> rfl

theorem codec : Codec decode encode Sound (KeepsRecord known) where
  reads v e hv h := by
    simp only [decode, Option.bind_eq_bind, Option.bind_eq_some_iff] at h
    obtain ⟨r, hr, assembly, hassembly, legacy, hlegacy, bytecode, hbytecode, deployed, hdeployed,
      methods, hmethods, gas, hgas, he⟩ := h
    obtain rfl := Option.some.inj he
    have hin := hv.record hr
    obtain ⟨-, kassembly⟩ := codec_string.reads_optional "assembly" (hin _ _) hassembly
    obtain ⟨slegacy, klegacy⟩ := reads_raw "legacyAssembly" (hin _ _) hlegacy
    obtain ⟨sbytecode, kbytecode⟩ := BytecodeOutput.codec.reads_defaulted "bytecode" (hin _ _)
      BytecodeOutput.sound_empty hbytecode
    obtain ⟨sdeployed, kdeployed⟩ := BytecodeOutput.codec.reads_defaulted "deployedBytecode"
      (hin _ _) BytecodeOutput.sound_empty hdeployed
    obtain ⟨smethods, kmethods⟩ := reads_raw "methodIdentifiers" (hin _ _) hmethods
    obtain ⟨sgas, kgas⟩ := GasEstimates.codec.reads_defaulted "gasEstimates" (hin _ _)
      GasEstimates.sound_empty hgas
    exact ⟨⟨slegacy, sbytecode, sdeployed, smethods, sgas⟩, r, _, hr, encode_eq _,
      .cons kassembly (.cons klegacy (.cons kbytecode (.cons kdeployed (.cons kmethods
        (.cons kgas (.nil _))))))⟩
  rereads f hf e h := by
    obtain ⟨r, hr, hfield⟩ := hf.record_written (by simp [parts] : (e.parts.map (·.1)).Nodup) 6
    have hassembly :=
      codec_string.rereads_optional hf (hfield 0 "assembly") rfl fun _ _ => trivial
    have hlegacy := rereads_raw hf (hfield 1 "legacyAssembly") h.legacyAssembly
    have hbytecode :=
      BytecodeOutput.codec.rereads_defaulted hf .empty (hfield 2 "bytecode") h.bytecode
    have hdeployed := BytecodeOutput.codec.rereads_defaulted hf .empty
      (hfield 3 "deployedBytecode") h.deployedBytecode
    have hmethods := rereads_raw hf (hfield 4 "methodIdentifiers") h.methodIdentifiers
    have hgas :=
      GasEstimates.codec.rereads_defaulted hf .empty (hfield 5 "gasEstimates") h.gasEstimates
    rw [encode_eq, decode, hr]
    simp only [Option.bind_eq_bind, Option.bind_some, hassembly, hlegacy, hbytecode, hdeployed,
      hmethods, hgas]
    rfl

theorem sound_empty : empty.Sound :=
  ⟨nofun, BytecodeOutput.sound_empty, BytecodeOutput.sound_empty, nofun, GasEstimates.sound_empty⟩

end EvmOutput

namespace ContractOutput

structure Sound (c : ContractOutput) : Prop where
  abi : c.abi.InOrder
  metadata : Raw c.metadata
  userdoc : Raw c.userdoc
  devdoc : Raw c.devdoc
  ir : Raw c.ir
  evm : c.evm.Sound
  ewasm : Raw c.ewasm

def known : List Known :=
  [⟨"abi", .defaulted .null, Eq⟩, ⟨"metadata", .optional, Eq⟩, ⟨"userdoc", .optional, Eq⟩,
    ⟨"devdoc", .optional, Eq⟩, ⟨"ir", .optional, Eq⟩,
    ⟨"evm", .defaulted EvmOutput.empty.encode, KeepsRecord EvmOutput.known⟩,
    ⟨"ewasm", .optional, Eq⟩]

def parts (c : ContractOutput) : List (String × Option Json) :=
  [("abi", some c.abi), ("metadata", c.metadata), ("userdoc", c.userdoc), ("devdoc", c.devdoc),
    ("ir", c.ir), ("evm", some c.evm.encode), ("ewasm", c.ewasm)]

theorem encode_eq (c : ContractOutput) : c.encode = .object (written c.parts) := by
  rw [encode, parts]
  cases c.metadata <;> cases c.userdoc <;> cases c.devdoc <;> cases c.ir <;> cases c.ewasm <;> rfl

theorem codec : Codec decode encode Sound (KeepsRecord known) where
  reads v c hv h := by
    simp only [decode, Option.bind_eq_bind, Option.bind_eq_some_iff] at h
    obtain ⟨r, hr, abi, habi, metadata, hmetadata, userdoc, huserdoc, devdoc, hdevdoc, ir, hir,
      evm, hevm, ewasm, hewasm, hc⟩ := h
    obtain rfl := Option.some.inj hc
    have hin := hv.record hr
    obtain ⟨sabi, kabi⟩ := codec_raw.reads_defaulted "abi" (hin _ _) .null habi
    obtain ⟨smetadata, kmetadata⟩ := reads_raw "metadata" (hin _ _) hmetadata
    obtain ⟨suserdoc, kuserdoc⟩ := reads_raw "userdoc" (hin _ _) huserdoc
    obtain ⟨sdevdoc, kdevdoc⟩ := reads_raw "devdoc" (hin _ _) hdevdoc
    obtain ⟨sir, kir⟩ := reads_raw "ir" (hin _ _) hir
    obtain ⟨sevm, kevm⟩ :=
      EvmOutput.codec.reads_defaulted "evm" (hin _ _) EvmOutput.sound_empty hevm
    obtain ⟨sewasm, kewasm⟩ := reads_raw "ewasm" (hin _ _) hewasm
    exact ⟨⟨sabi, smetadata, suserdoc, sdevdoc, sir, sevm, sewasm⟩, r, _, hr, encode_eq _,
      .cons kabi (.cons kmetadata (.cons kuserdoc (.cons kdevdoc (.cons kir (.cons kevm
        (.cons kewasm (.nil _)))))))⟩
  rereads f hf c h := by
    obtain ⟨r, hr, hfield⟩ := hf.record_written (by simp [parts] : (c.parts.map (·.1)).Nodup) 7
    have habi := codec_raw.rereads_defaulted hf .null (hfield 0 "abi") h.abi
    have hmetadata := rereads_raw hf (hfield 1 "metadata") h.metadata
    have huserdoc := rereads_raw hf (hfield 2 "userdoc") h.userdoc
    have hdevdoc := rereads_raw hf (hfield 3 "devdoc") h.devdoc
    have hir := rereads_raw hf (hfield 4 "ir") h.ir
    have hevm := EvmOutput.codec.rereads_defaulted hf .empty (hfield 5 "evm") h.evm
    have hewasm := rereads_raw hf (hfield 6 "ewasm") h.ewasm
    rw [encode_eq, decode, hr]
    simp only [Option.bind_eq_bind, Option.bind_some, habi, hmetadata, huserdoc, hdevdoc, hir,
      hevm, hewasm]
    rfl

end ContractOutput

namespace Output

structure Sound (o : Output) : Prop where
  diagnostics : ∀ d ∈ o.diagnostics, d.Sound
  sources : o.sources.All SourceOutput.Sound
  contracts : o.contracts.All (·.All ContractOutput.Sound)

def known : List Known :=
  [⟨"errors", .nonempty, KeepsList (KeepsRecord Diagnostic.known)⟩,
    ⟨"sources", .nonempty, KeepsDict (KeepsRecord SourceOutput.known)⟩,
    ⟨"contracts", .nonempty, KeepsDict (KeepsDict (KeepsRecord ContractOutput.known))⟩]

def parts (o : Output) : List (String × Option Json) :=
  [("errors", if o.diagnostics.isEmpty then none
      else some (.array (o.diagnostics.map Diagnostic.encode))),
    ("sources", if o.sources.isEmpty then none else some (o.sources.encode SourceOutput.encode)),
    ("contracts", if o.contracts.isEmpty then none
      else some (o.contracts.encode fun file => file.encode ContractOutput.encode))]

theorem encode_eq (o : Output) : o.encode = .object (written o.parts) := by
  rw [encode, parts]
  cases o.diagnostics.isEmpty <;> cases o.sources.isEmpty <;> cases o.contracts.isEmpty <;> rfl

def withoutNullTrees (o : Output) : Output :=
  { o with sources := o.sources.map SourceOutput.withoutNullTree }

theorem withoutNullTrees_eq_self_iff {o : Output} :
    o.withoutNullTrees = o ↔ o.sources.All (·.legacyAst ≠ some .null) := by
  have hsources : o.withoutNullTrees = o ↔ o.sources.map SourceOutput.withoutNullTree = o.sources :=
    ⟨congrArg sources, fun h => by rw [withoutNullTrees, h]⟩
  rw [hsources, Dict.map_eq_self_iff]
  exact forall₂_congr fun _ _ => SourceOutput.withoutNullTree_eq_self_iff

structure Storable (o : Output) : Prop where
  diagnostics : ∀ d ∈ o.diagnostics, d.Sound
  sources : o.sources.All SourceOutput.Storable
  contracts : o.contracts.All (·.All ContractOutput.Sound)

theorem Sound.storable {o : Output} (h : o.Sound) : o.Storable :=
  ⟨h.diagnostics, fun e he => (h.sources e he).storable, h.contracts⟩

theorem reread {f : Json → Json} {o : Output} (hf : Arrangement f) (h : o.Storable) :
    decode (f o.encode) = some o.withoutNullTrees := by
  obtain ⟨r, hr, hfield⟩ := hf.record_written (by simp [parts] : (o.parts.map (·.1)).Nodup) 3
  have hdiagnostics := Diagnostic.codec.rereads_nonemptyList hf (hfield 0 "errors") h.diagnostics
  have hsources := nonemptyDict_encode hf (hfield 1 "sources")
    fun e he => SourceOutput.reread hf (h.sources e he)
  have hcontracts :=
    ContractOutput.codec.dict.rereads_nonemptyDict hf (hfield 2 "contracts") h.contracts
  rw [encode_eq, decode, hr]
  simp only [Option.bind_eq_bind, Option.bind_some, hdiagnostics, hsources, hcontracts]
  rfl

theorem codec : Codec decode encode Sound (KeepsRecord known) where
  reads v o hv h := by
    simp only [decode, Option.bind_eq_bind, Option.bind_eq_some_iff] at h
    obtain ⟨r, hr, diagnostics, hdiagnostics, sources, hsources, contracts, hcontracts, ho⟩ := h
    obtain rfl := Option.some.inj ho
    have hin := hv.record hr
    obtain ⟨sdiagnostics, kdiagnostics⟩ :=
      Diagnostic.codec.reads_nonemptyList "errors" (hin _ _) hdiagnostics
    obtain ⟨ssources, ksources⟩ :=
      SourceOutput.codec.reads_nonemptyDict "sources" (hin _ _) hsources
    obtain ⟨scontracts, kcontracts⟩ :=
      ContractOutput.codec.dict.reads_nonemptyDict "contracts" (hin _ _) hcontracts
    exact ⟨⟨sdiagnostics, ssources, scontracts⟩, r, _, hr, encode_eq _,
      .cons kdiagnostics (.cons ksources (.cons kcontracts (.nil _)))⟩
  rereads f hf o h := by
    have htrees : o.sources.All (·.legacyAst ≠ some .null) :=
      fun e he => (h.sources e he).legacyAst.ne_null
    rw [reread hf h.storable, withoutNullTrees_eq_self_iff.2 htrees]

end Output

end SolidityHost
