import WasmEngine.Memory
import WasmEngine.Module.ConstExpr

/-!
# Module/Decode — from bytes to sections

A binary module is an eight-byte header followed by sections, each an id, a length and a payload.
The known sections come at most once and in a fixed order; custom sections may stand anywhere
between them.  `Module.decode` reads the whole of it and checks every index, count and constant
expression on the way, but not the code of functions.
-/

namespace WasmEngine

/-- A module of which some sections have been read. -/
structure Draft extends Module where
  /-- The number of function bodies read so far. -/
  bodyCount : Nat := 0

namespace Draft

/-! ## Parts of sections -/

/-- A function type: the byte `0x60`, the parameters and the results. -/
def funcType : Reader Signature := do
  if (← Reader.byte) ≠ 0x60 then Reader.malformed .invalidFuncType
  let params ← Reader.replicate (← Reader.u32) Reader.valType
  let results ← Reader.replicate (← Reader.u32) Reader.valType
  pure { params, results }

/-- The bounds of a table: a flag that tells whether there is a maximum, and one or two numbers. -/
def extent (imported : Option ImportName) : Reader Extent := do
  let flag ← Reader.unsigned 1
  let min ← Reader.u32
  if flag = 1 then
    let max ← Reader.u32
    if max < min then Reader.invalid .minExceedsMax
    pure { min, max := some max, imported }
  else pure { min, max := none, imported }

/-- The bounds of a memory: those of a table, within the address space. -/
def memoryExtent (imported : Option ImportName) : Reader Extent := do
  let e ← extent imported
  if Memory.maxPages < e.min ∨ Memory.maxPages < e.max.getD 0 then Reader.invalid .memoryTooLarge
  pure e

/-- The byte of the one reference type that tables hold. -/
def referenceType : Reader Unit := do
  if (← Reader.byte) ≠ 0x70 then Reader.malformed .referenceType

/-- A flag byte that tells whether a global may be set. -/
def mutability : Reader Bool := do
  match ← Reader.byte with
  | 0 => pure false
  | 1 => pure true
  | _ => Reader.malformed .invalidMutability

/-- The byte of a kind of external item. -/
def externKind : Reader ExternKind := do
  match ExternKind.ofByte? (← Reader.byte) with
  | some kind => pure kind
  | none => Reader.malformed .importKind

/-- The index of a function type, and that type. -/
def typeUse (d : Draft) : Reader (Nat × Signature) := do
  let index ← Reader.u32
  match d.types[index]? with
  | some type => pure (index, type)
  | none => Reader.invalid .unknownType

/-- An element given as an expression: a function or a null reference. -/
def elementExpr : Reader (Option Nat) := do
  let func ← do
    match ← Reader.byte with
    | 0xd2 => some <$> Reader.u32
    | 0xd0 => do referenceType; pure none
    | _ => Reader.invalid .constantRequired
  if (← Reader.byte) ≠ 0x0b then Reader.malformed .endExpected
  pure func

/-! ## Sections -/

/-- The function types. -/
def typeSection (d : Draft) : Reader Draft := do
  let types ← Reader.replicate (← Reader.u32) funcType
  pure { d with types := types.toArray }

/-- One import. -/
def importEntry (d : Draft) : Reader Draft := do
  let module ← Reader.name
  let name ← Reader.name
  let kind ← externKind
  let ref : ImportName := { module, name }
  let d : Draft := { d with imports := d.imports ++ [⟨ref, kind⟩] }
  match kind with
  | .func =>
    let (typeIndex, type) ← d.typeUse
    pure { d with functions := d.functions.push { typeIndex, type, imported := some ref } }
  | .table =>
    if d.table.isSome then Reader.invalid .multipleTables
    referenceType
    pure { d with table := some (← extent (some ref)) }
  | .memory =>
    if d.memory.isSome then Reader.invalid .multipleMemories
    pure { d with memory := some (← memoryExtent (some ref)) }
  | .global =>
    let type ← Reader.valType
    let isMutable ← mutability
    pure { d with globals := d.globals.push { type, isMutable, imported := some ref } }

/-- The imports. -/
def importSection (d : Draft) : Reader Draft := do
  Reader.iterate (← Reader.u32) importEntry d

/-- The types of the functions that the module defines. -/
def functionSection (d : Draft) : Reader Draft := do
  let uses ← Reader.replicate (← Reader.u32) d.typeUse
  let functions : List Function := uses.map fun (typeIndex, type) => { typeIndex, type }
  pure { d with functions := d.functions ++ functions.toArray }

/-- The table. -/
def tableSection (d : Draft) : Reader Draft := do
  let n ← Reader.u32
  if 1 < n ∨ (n = 1 ∧ d.table.isSome) then Reader.invalid .multipleTables
  if n = 1 then
    referenceType
    pure { d with table := some (← extent none) }
  else pure d

/-- The memory. -/
def memorySection (d : Draft) : Reader Draft := do
  let n ← Reader.u32
  if 1 < n ∨ (n = 1 ∧ d.memory.isSome) then Reader.invalid .multipleMemories
  if n = 1 then pure { d with memory := some (← memoryExtent none) } else pure d

/-- One global.  Its initialiser may read the globals before it. -/
def globalEntry (d : Draft) : Reader Draft := do
  let type ← Reader.valType
  let isMutable ← mutability
  let init ← Reader.position
  ConstExpr.check d.globals type
  pure { d with globals := d.globals.push { type, isMutable, init } }

/-- The globals. -/
def globalSection (d : Draft) : Reader Draft := do
  Reader.iterate (← Reader.u32) globalEntry d

/-- One export, of an item that exists and under a name of its own. -/
def exportEntry (d : Draft) : Reader Draft := do
  let name ← Reader.name
  let kind ← externKind
  let index ← Reader.u32
  if (d.export? name).isSome then Reader.invalid .duplicateExport
  match kind with
  | .func => if d.functions.size ≤ index then Reader.invalid .unknownFunc
  | .table => if index ≠ 0 ∨ d.table.isNone then Reader.invalid .unknownTable
  | .memory => if index ≠ 0 ∨ d.memory.isNone then Reader.invalid .unknownMemory
  | .global => if d.globals.size ≤ index then Reader.invalid .unknownGlobal
  pure { d with exports := d.exports ++ [⟨name, kind, index⟩] }

/-- The exports. -/
def exportSection (d : Draft) : Reader Draft := do
  Reader.iterate (← Reader.u32) exportEntry d

/-- The start function. -/
def startSection (d : Draft) : Reader Draft := do
  let start ← Reader.u32
  if d.functions.size ≤ start then Reader.invalid .unknownFunc
  pure { d with start := some start }

/-- The mode of an element segment.  Bit 0 of the flags separates active segments from the others,
and bit 1 tells whether an active segment names its table and whether another is declarative. -/
def elementMode (d : Draft) (flags : Nat) : Reader SegmentMode := do
  if flags.testBit 0 then
    pure (if flags.testBit 1 then .declarative else .passive)
  else
    if flags.testBit 1 then
      if (← Reader.u32) ≠ 0 then Reader.invalid .unknownTable
    if d.table.isNone then Reader.invalid .unknownTable
    let offset ← Reader.position
    ConstExpr.check d.globals .i32
    pure (.active offset)

/-- One element segment.  Bit 2 of the flags tells whether its elements are expressions. -/
def elementEntry (d : Draft) : Reader Draft := do
  let flags ← Reader.u32
  if 7 < flags then Reader.malformed .elementKind
  let mode ← d.elementMode flags
  -- The segments with neither of the low bits leave out the kind of their elements.
  if flags % 4 ≠ 0 then
    let kind ← Reader.byte
    if flags.testBit 2 then
      if kind ≠ 0x70 then Reader.malformed .referenceType
    else
      if kind ≠ 0x00 then Reader.malformed .elementKind
  let funcs ← Reader.replicate (← Reader.u32) do
    let func ← if flags.testBit 2 then elementExpr else some <$> Reader.u32
    if d.functions.size ≤ func.getD 0 ∧ func.isSome then Reader.invalid .unknownFunc
    pure func
  pure { d with elements := d.elements ++ [⟨mode, funcs⟩] }

/-- The element segments. -/
def elementSection (d : Draft) : Reader Draft := do
  Reader.iterate (← Reader.u32) elementEntry d

/-- The number of data segments to come. -/
def dataCountSection (d : Draft) : Reader Draft := do
  pure { d with dataCount := some (← Reader.u32) }

/-- A run of locals of one type, added to those before it. -/
def localsEntry (locals : Array ValType) : Reader (Array ValType) := do
  let n ← Reader.u32
  let type ← Reader.valType
  if Module.maxLocals < locals.size + n then Reader.malformed .tooManyLocals
  pure (locals ++ Array.replicate n type)

/-- The body of the next function: its length, its locals and its instructions. -/
def bodyEntry (first : Nat) (d : Draft) : Reader Draft := do
  let length ← Reader.u32
  let start ← Reader.position
  Reader.require length
  let stop := start + length
  let index := first + d.bodyCount
  let params := (d.functions[index]?.map (·.type.params)).getD []
  let (locals, code) ← Reader.within stop do
    let locals ← Reader.iterate (← Reader.u32) localsEntry params.toArray
    pure (locals.toList, ← Reader.position)
  Reader.seek stop
  pure { d with
    functions := d.functions.modify index ({ · with locals, body := ⟨code, stop⟩ })
    bodyCount := d.bodyCount + 1 }

/-- The bodies of the functions that the module defines. -/
def codeSection (d : Draft) : Reader Draft := do
  let n ← Reader.u32
  let first := d.importedCount
  if first + n ≠ d.functions.size then Reader.malformed .codeCountMismatch
  Reader.iterate n (bodyEntry first) d

/-- The mode of a data segment. -/
def dataMode (d : Draft) : Reader SegmentMode := do
  let flag ← Reader.u32
  if flag = 1 then pure .passive
  else if flag = 0 ∨ flag = 2 then
    if flag = 2 then
      if (← Reader.u32) ≠ 0 then Reader.invalid .unknownMemory
    if d.memory.isNone then Reader.invalid .unknownMemory
    let offset ← Reader.position
    ConstExpr.check d.globals .i32
    pure (.active offset)
  else Reader.invalid .dataSegmentFlag

/-- One data segment. -/
def dataEntry (d : Draft) : Reader Draft := do
  let mode ← d.dataMode
  let length ← Reader.u32
  Reader.require length
  let start ← Reader.skip length
  pure { d with dataSegments := d.dataSegments ++ [⟨mode, ⟨start, start + length⟩⟩] }

/-- The data segments. -/
def dataSection (d : Draft) : Reader Draft := do
  Reader.iterate (← Reader.u32) dataEntry d

/-! ## Framing -/

/-- Skips custom sections, at most `left` of them, and keeps their names and places. -/
def customSectionsUpTo : Nat → Draft → Reader Draft
  | 0, d => pure d
  | left + 1, d => do
    if (← Reader.peek?) = some 0 then
      discard Reader.byte
      let length ← Reader.u32
      let start ← Reader.position
      Reader.require length
      let stop := start + length
      let (name, content) ← Reader.within stop do
        let name ← Reader.name
        pure (name, ← Reader.position)
      Reader.seek stop
      customSectionsUpTo left
        { d with customSections := d.customSections ++ [⟨name, ⟨content, stop⟩⟩] }
    else pure d

/-- Skips the custom sections that come next. -/
def skipCustomSections (d : Draft) : Reader Draft := do
  customSectionsUpTo ((← read).stop - (← Reader.position)) d

/-- Reads the section `id` if it comes next, whose content must fill its payload, and skips the
custom sections behind it. -/
def knownSection (id : UInt8) (content : Draft → Reader Draft) (d : Draft) : Reader Draft := do
  let d ← do
    if (← Reader.peek?) = some id then
      discard Reader.byte
      let length ← Reader.u32
      let start ← Reader.position
      Reader.require length
      let d ← Reader.within (start + length) (content d)
      if (← Reader.position) ≠ start + length then Reader.malformed .sectionSizeMismatch
      pure d
    else pure d
  skipCustomSections d

/-- The known sections by id, in the order in which they may come. -/
def knownSections : List (UInt8 × (Draft → Reader Draft)) :=
  [(1, typeSection), (2, importSection), (3, functionSection), (4, tableSection),
    (5, memorySection), (6, globalSection), (7, exportSection), (8, startSection),
    (9, elementSection), (12, dataCountSection), (10, codeSection), (11, dataSection)]

/-- Reads all sections. -/
def sections (d : Draft) : Reader Draft := do
  let d ← skipCustomSections d
  knownSections.foldlM (fun d (id, content) => knownSection id content d) d

/-- Checks that nothing is left and that the counts of different sections agree. -/
def finish (d : Draft) : Reader Module := do
  match ← Reader.peek? with
  | some id =>
    Reader.malformed (if id ≤ 12 then .sectionOutOfOrder else .invalidSectionId)
  | none =>
    if d.functions.size - d.importedCount ≠ d.bodyCount then Reader.malformed .codeCountMismatch
    if d.dataCount.getD d.dataSegments.length ≠ d.dataSegments.length then
      Reader.malformed .dataCountMismatch
    pure d.toModule

end Draft

namespace Module

/-- The four bytes that open every module. -/
def magic : List UInt8 := [0x00, 0x61, 0x73, 0x6d]

/-- The four bytes of the supported version. -/
def version : List UInt8 := [0x01, 0x00, 0x00, 0x00]

/-- Reads the header. -/
def header : Reader Unit := do
  let bytes := (← read).bytes
  Reader.require 4
  if (bytes.extract 0 4).toList ≠ magic then Reader.malformed .noMagic
  Reader.require 8
  if (bytes.extract 4 8).toList ≠ version then Reader.malformed .unknownVersion
  Reader.seek 8

/-- Reads a module from bytes, without looking into the code of its functions. -/
def decode (bytes : ByteArray) : Except Error Module :=
  let reader : Reader Module := do
    header
    let d ← Draft.sections { bytes }
    d.finish
  match reader.runAt (.ofBytes bytes) 0 with
  | .ok (m, _) => .ok m
  | .error e => .error e

end Module

end WasmEngine
