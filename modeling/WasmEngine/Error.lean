import WasmEngine.Text.Hex

/-!
# Error — why an operation of the engine fails

`Error` is the one error type of the library, with one constructor per cause and its wording in
`Error.message`.  `Error.IsFatal` singles out the failures after which an instance may not run again.

`Error.fault` stands apart: it reports that the engine itself went out of range (a missing operand,
an index past the end of a table).  Each such place is explicit, so that "never happens on a
validated module" is a statement about results.
-/

namespace WasmEngine

/-- Faults of guest code that end its execution. -/
inductive Trap where
  | unreachable
  | memoryOutOfBounds
  | integerDivideByZero
  | integerOverflow
  | invalidConversion
  | stackOverflow
  | undefinedElement
  | uninitializedElement
  | indirectCallTypeMismatch
  | outOfFuel
deriving DecidableEq, Repr

/-- The wording of a trap. -/
def Trap.message : Trap → String
  | unreachable => "unreachable"
  | memoryOutOfBounds => "out of bounds memory access"
  | integerDivideByZero => "integer divide by zero"
  | integerOverflow => "integer overflow"
  | invalidConversion => "invalid conversion to integer"
  | stackOverflow => "call stack exhausted"
  | undefinedElement => "undefined element"
  | uninitializedElement => "uninitialized element"
  | indirectCallTypeMismatch => "indirect call type mismatch"
  | outOfFuel => "all fuel consumed"

/-- Ways in which bytes fail to be a module. -/
inductive Malformation where
  | dataCountMismatch
  | endExpected
  | codeCountMismatch
  | integerTooLarge
  | integerTooLong
  | invalidFuncType
  | invalidMutability
  | invalidSectionId
  | invalidUtf8
  | invalidValueType
  | elementKind
  | importKind
  | referenceType
  | noMagic
  | sectionOutOfOrder
  | sectionSizeMismatch
  | tooManyLocals
  | endOfInput
  /-- A run of bytes of known length reaches past the end. -/
  | endOfRange
  | unknownVersion
  | unknownInstruction
  | zeroByteExpected
  /-- A malformation that a host function reports in its own words. -/
  | reported (text : String)
deriving DecidableEq, Repr

/-- The wording of a malformation. -/
def Malformation.message : Malformation → String
  | dataCountMismatch => "data count and data section have inconsistent lengths"
  | endExpected => "END opcode expected"
  | codeCountMismatch => "function and code section have inconsistent lengths"
  | integerTooLarge => "integer too large"
  | integerTooLong => "integer representation too long"
  | invalidFuncType => "invalid function type"
  | invalidMutability => "invalid mutability"
  | invalidSectionId => "invalid section id"
  | invalidUtf8 => "invalid UTF-8 encoding"
  | invalidValueType => "invalid value type"
  | elementKind => "malformed elements segment kind"
  | importKind => "malformed import kind"
  | referenceType => "malformed reference type"
  | noMagic => "magic header not detected"
  | sectionOutOfOrder => "unexpected content after last section"
  | sectionSizeMismatch => "section size mismatch"
  | tooManyLocals => "too many locals"
  | endOfInput => "unexpected end of section or function"
  | endOfRange => "unexpected end"
  | unknownVersion => "unknown binary version"
  | unknownInstruction => "unknown instruction"
  | zeroByteExpected => "zero byte expected"
  | reported text => text

/-- Rules of typing and structure that a decoded module may break. -/
inductive Violation where
  | alignmentTooLarge
  | constantRequired
  | duplicateExport
  | elseWithoutIf
  | globalIsImmutable
  | dataSegmentFlag
  | resultArity
  | memoryTooLarge
  | minExceedsMax
  | multipleMemories
  | multipleTables
  | notValidated
  | startFunction
  | typeMismatch
  | unknownFunc
  | unknownGlobal
  | unknownLabel
  | unknownLocal
  | unknownMemory
  | unknownTable
  | unknownType
deriving DecidableEq, Repr

/-- The wording of a violation. -/
def Violation.message : Violation → String
  | alignmentTooLarge => "alignment must not be larger than natural"
  | constantRequired => "constant expression required"
  | duplicateExport => "duplicate export name"
  | elseWithoutIf => "else must close an if"
  | globalIsImmutable => "global is immutable"
  | dataSegmentFlag => "invalid data segment flag"
  | resultArity => "invalid result arity"
  | memoryTooLarge => "memory size must be at most 65536 pages (4GiB)"
  | minExceedsMax => "size minimum must not be greater than maximum"
  | multipleMemories => "multiple memories"
  | multipleTables => "multiple tables"
  | notValidated => "module has not been validated"
  | startFunction => "start function"
  | typeMismatch => "type mismatch"
  | unknownFunc => "unknown function"
  | unknownGlobal => "unknown global"
  | unknownLabel => "unknown label"
  | unknownLocal => "unknown local"
  | unknownMemory => "unknown memory"
  | unknownTable => "unknown table"
  | unknownType => "unknown type"

/-- Reasons why a module cannot be joined to its surroundings. -/
inductive LinkFailure where
  | dataSegmentDoesNotFit
  | elementSegmentDoesNotFit
  | memoryLimit
  | tableLimit
  | unknownMemory
  | unsupportedImport
  /-- A failure that a host function reports in its own words. -/
  | reported (text : String)
deriving DecidableEq, Repr

/-- The wording of a link failure. -/
def LinkFailure.message : LinkFailure → String
  | dataSegmentDoesNotFit => "data segment does not fit"
  | elementSegmentDoesNotFit => "elements segment does not fit"
  | memoryLimit => "initial memory exceeds the configured page limit"
  | tableLimit => "initial table exceeds the configured element limit"
  | unknownMemory => "unknown memory"
  | unsupportedImport => "unsupported import kind"
  | reported text => text

/-- Reasons why a configuration is refused. -/
inductive ConfigError where
  /-- The text is not a description of limits. -/
  | unreadable
  | tooManyPages (pages bound : Nat)
  | zeroCallDepth
  | hostDepthExceedsCallDepth (hostDepth callDepth : Nat)
  /-- A configuration error that a host function reports in its own words. -/
  | reported (text : String)
deriving DecidableEq, Repr

/-- The wording of a configuration error. -/
def ConfigError.message : ConfigError → String
  | unreadable => "unreadable limits"
  | tooManyPages pages bound => s!"max_memory_pages {pages} exceeds {bound}"
  | zeroCallDepth => "max_call_depth must be positive"
  | hostDepthExceedsCallDepth hostDepth callDepth =>
    s!"max_host_depth {hostDepth} exceeds max_call_depth {callDepth}"
  | reported text => text

/-- Places at which the engine would leave its own data. -/
inductive Fault where
  /-- Fewer operands than an instruction takes. -/
  | missingOperand
  /-- An instruction outside the code, or bytes that encode none. -/
  | missingInstruction
  /-- A block without an entry in the side table. -/
  | missingBlock
  | missingLocal
  | missingGlobal
  | missingFunction
  | missingType
  | missingMemory
  | missingInstance
  /-- Fewer results than a call declares. -/
  | missingResult
  /-- A range of bytes whose end lies before its start or past the end of the data. -/
  | invalidRange
  /-- A view of memory or a hook taken while it is lent in a way that excludes it. -/
  | conflictingLoan
deriving DecidableEq, Repr

/-- The two names under which a function, table, memory or global is imported. -/
structure ImportName where
  /-- The name of the providing module. -/
  module : String
  /-- The name of the item in that module. -/
  name : String
deriving DecidableEq, Repr

/-- The place of an instruction: the index of its function and its offset in the module's bytes. -/
structure CodeSite where
  func : Nat
  offset : Nat
deriving DecidableEq, Repr

/-- The failures of the engine. -/
inductive Error where
  /-- The bytes are no module. -/
  | malformed (cause : Malformation)
  /-- The module breaks a rule, at an instruction if the rule is one of code. -/
  | validation (cause : Violation) (site : Option CodeSite)
  | unresolvedImport (ref : ImportName)
  | signatureMismatch (ref : ImportName)
  | link (cause : LinkFailure)
  | trap (cause : Trap)
  /-- A host function ended the execution on purpose. -/
  | hostAbort (message : String)
  | unknownExport (name : String)
  | argumentMismatch
  /-- The instance trapped or was aborted earlier. -/
  | poisoned
  /-- Linear memory is lent to a view that excludes the access. -/
  | memoryBorrowed
  /-- A host function that runs outside any instance asked for one. -/
  | callerNotWasm
  | config (cause : ConfigError)
  /-- The engine left its own data. -/
  | fault (cause : Fault)
deriving DecidableEq, Repr

namespace Error

/-- A violation that belongs to no instruction. -/
abbrev invalid (cause : Violation) : Error := validation cause none

/-- Failures after which the instance may not run again. -/
def IsFatal : Error → Prop
  | trap _ | hostAbort _ => True
  | _ => False

instance : DecidablePred IsFatal
  | trap _ | hostAbort _ => isTrue trivial
  | malformed _ | validation _ _ | unresolvedImport _ | signatureMismatch _ | link _
  | unknownExport _ | argumentMismatch | poisoned | memoryBorrowed | callerNotWasm | config _
  | fault _ => isFalse id

/-- The wording of an error. -/
def message : Error → String
  | malformed cause => cause.message
  | validation cause (some site) =>
    s!"{cause.message} (function {site.func} at offset 0x{hex site.offset})"
  | validation cause none => cause.message
  | unresolvedImport ref => s!"unknown import: {ref.module}.{ref.name}"
  | signatureMismatch ref => s!"incompatible import type: {ref.module}.{ref.name}"
  | link cause => cause.message
  | trap cause => cause.message
  | hostAbort text => s!"host abort: {text}"
  | unknownExport name => s!"unknown export: {name}"
  | argumentMismatch => "invalid number or type of arguments"
  | poisoned => "instance was poisoned by an earlier trap"
  | memoryBorrowed => "linear memory is already borrowed"
  | callerNotWasm => "host function was not called from a wasm instance"
  | config cause => s!"invalid configuration: {cause.message}"
  | fault _ => "internal fault"

end Error

end WasmEngine
