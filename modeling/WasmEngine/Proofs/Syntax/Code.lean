import WasmEngine.Guest.Codec
import WasmEngine.Instr.Basic
import WasmEngine.Proofs.Leb128.Format

/-!
# Proofs/Syntax/Code — structured code and its binary encoding

The binary format is flat: a block is opened by one instruction and closed by another.  `Code` is the
nested syntax behind it, a sequence whose elements are blocks or instructions that open none.
`Instr.Encodes` gives the bytes of an instruction and `Code.Encodes` those of a sequence.
-/

namespace WasmEngine

/-! ## Instructions without blocks -/

namespace Instr

variable {α β γ : Type}

/-- Changes what the instructions that open a block carry. -/
def map (f : α → β) : Instr α → Instr β
  | unreachable => unreachable
  | nop => nop
  | block b => block (f b)
  | loop b => loop (f b)
  | ifThen b => ifThen (f b)
  | elseMark => elseMark
  | endMark => endMark
  | br depth => br depth
  | brIf depth => brIf depth
  | brTable targets default => brTable targets default
  | ret => ret
  | call func => call func
  | callIndirect type table => callIndirect type table
  | drop => drop
  | select type => select type
  | localGet index => localGet index
  | localSet index => localSet index
  | localTee index => localTee index
  | globalGet index => globalGet index
  | globalSet index => globalSet index
  | load op arg => load op arg
  | store op arg => store op arg
  | memorySize => memorySize
  | memoryGrow => memoryGrow
  | memoryCopy => memoryCopy
  | memoryFill => memoryFill
  | const value => const value
  | numeric op => numeric op

@[simp] theorem map_map (f : α → β) (g : β → γ) (i : Instr α) :
    (i.map f).map g = i.map (g ∘ f) := by
  cases i <;> rfl

/-- An instruction that carries no block type is one at every type. -/
abbrev embed (i : Instr Empty) : Instr β := i.map Empty.elim

@[simp] theorem map_embed (f : α → β) (i : Instr Empty) : (i.embed : Instr α).map f = i.embed := by
  cases i with
  | block b => exact b.elim
  | loop b => exact b.elim
  | ifThen b => exact b.elim
  | _ => rfl

theorem embed_injective : Function.Injective (embed : Instr Empty → Instr β) := by
  intro i j h
  cases i with
  | block b => exact b.elim
  | loop b => exact b.elim
  | ifThen b => exact b.elim
  | _ =>
    cases j with
    | block b => exact b.elim
    | loop b => exact b.elim
    | ifThen b => exact b.elim
    | _ => first | cases h; rfl | cases h

/-- Whether an instruction neither opens nor closes a block, nor stands between two. -/
def IsPlain : Instr α → Prop
  | block _ | loop _ | ifThen _ | elseMark | endMark => False
  | _ => True

/-- Whether an instruction opens a block. -/
def OpensBlock : Instr α → Prop
  | block _ | loop _ | ifThen _ => True
  | _ => False

theorem plain_or_nesting (i : Instr α) :
    i.IsPlain ∨ (∃ b, i = block b ∨ i = loop b ∨ i = ifThen b) ∨ i = elseMark ∨ i = endMark := by
  cases i with
  | block b => exact .inr (.inl ⟨b, .inl rfl⟩)
  | loop b => exact .inr (.inl ⟨b, .inr (.inl rfl)⟩)
  | ifThen b => exact .inr (.inl ⟨b, .inr (.inr rfl)⟩)
  | elseMark => exact .inr (.inr (.inl rfl))
  | endMark => exact .inr (.inr (.inr rfl))
  | _ => exact .inl trivial

/-- A plain instruction carries no block type. -/
theorem exists_embed_of_isPlain {i : Instr α} (h : i.IsPlain) :
    ∃ p : Instr Empty, p.IsPlain ∧ p.embed = i := by
  cases i with
  | block | loop | ifThen | elseMark | endMark => exact h.elim
  | unreachable => exact ⟨.unreachable, trivial, rfl⟩
  | nop => exact ⟨.nop, trivial, rfl⟩
  | br depth => exact ⟨.br depth, trivial, rfl⟩
  | brIf depth => exact ⟨.brIf depth, trivial, rfl⟩
  | brTable targets default => exact ⟨.brTable targets default, trivial, rfl⟩
  | ret => exact ⟨.ret, trivial, rfl⟩
  | call func => exact ⟨.call func, trivial, rfl⟩
  | callIndirect type table => exact ⟨.callIndirect type table, trivial, rfl⟩
  | drop => exact ⟨.drop, trivial, rfl⟩
  | select type => exact ⟨.select type, trivial, rfl⟩
  | localGet index => exact ⟨.localGet index, trivial, rfl⟩
  | localSet index => exact ⟨.localSet index, trivial, rfl⟩
  | localTee index => exact ⟨.localTee index, trivial, rfl⟩
  | globalGet index => exact ⟨.globalGet index, trivial, rfl⟩
  | globalSet index => exact ⟨.globalSet index, trivial, rfl⟩
  | load op arg => exact ⟨.load op arg, trivial, rfl⟩
  | store op arg => exact ⟨.store op arg, trivial, rfl⟩
  | memorySize => exact ⟨.memorySize, trivial, rfl⟩
  | memoryGrow => exact ⟨.memoryGrow, trivial, rfl⟩
  | memoryCopy => exact ⟨.memoryCopy, trivial, rfl⟩
  | memoryFill => exact ⟨.memoryFill, trivial, rfl⟩
  | const value => exact ⟨.const value, trivial, rfl⟩
  | numeric op => exact ⟨.numeric op, trivial, rfl⟩

theorem IsPlain.embed_ne_endMark {i : Instr Empty} (h : i.IsPlain) :
    (i.embed : Instr α) ≠ endMark := by
  cases i with
  | endMark => exact h.elim
  | _ => exact nofun

/-- Whether an instruction works on memory. -/
def NeedsMemory : Instr α → Prop
  | load _ _ | store _ _ | memorySize | memoryGrow | memoryCopy | memoryFill => True
  | _ => False

theorem needsMemory_map {f : α → β} {i : Instr α} : (i.map f).NeedsMemory ↔ i.NeedsMemory := by
  cases i <;> rfl

end Instr

/-! ## Structured code -/

/-- A sequence of instructions in which blocks are nested. -/
inductive Code where
  | nil
  /-- An instruction that neither opens nor closes a block. -/
  | plain (i : Instr Empty) (rest : Code)
  | block (type : BlockType) (body rest : Code)
  | loop (type : BlockType) (body rest : Code)
  /-- An `if` without an `else`. -/
  | ifThen (type : BlockType) (body rest : Code)
  | ifElse (type : BlockType) (thenBody elseBody rest : Code)
deriving DecidableEq, Repr

/-! ## Immediates -/

/-- The bytes of an unsigned 32-bit number. -/
abbrev EncodesU32 (v : Nat) (bs : List UInt8) : Prop := Leb128.EncodesUnsigned 32 v bs

/-- The bytes of items one after the other. -/
def EncodesEach {α : Type} (item : α → List UInt8 → Prop) : List α → List UInt8 → Prop
  | [], bs => bs = []
  | x :: xs, bs => ∃ b₁ b₂, bs = b₁ ++ b₂ ∧ item x b₁ ∧ EncodesEach item xs b₂

/-- The bytes of a block type: a byte of its own, a value type, or a type index as a signed
number. -/
inductive BlockType.Encodes : BlockType → List UInt8 → Prop where
  | empty : Encodes .empty [0x40]
  | value (t : ValType) : Encodes (.value t) [t.toByte]
  | index {n : Nat} {bs : List UInt8} (h : Leb128.EncodesSigned 33 n bs) : Encodes (.index n) bs

/-- The bytes of the immediates of an access to memory. -/
def MemArg.Encodes (arg : MemArg) (bs : List UInt8) : Prop :=
  ∃ b₁ b₂, bs = b₁ ++ b₂ ∧ EncodesU32 arg.align b₁ ∧ EncodesU32 arg.offset.toNat b₂

/-! ## Instructions -/

/-- The bytes of an instruction: its opcode and its immediates.  Numbers may be padded. -/
inductive Instr.Encodes : Instr BlockType → List UInt8 → Prop where
  | unreachable : Encodes .unreachable [0x00]
  | nop : Encodes .nop [0x01]
  | block {type bs} (h : type.Encodes bs) : Encodes (.block type) (0x02 :: bs)
  | loop {type bs} (h : type.Encodes bs) : Encodes (.loop type) (0x03 :: bs)
  | ifThen {type bs} (h : type.Encodes bs) : Encodes (.ifThen type) (0x04 :: bs)
  | elseMark : Encodes .elseMark [0x05]
  | endMark : Encodes .endMark [0x0b]
  | br {depth bs} (h : EncodesU32 depth bs) : Encodes (.br depth) (0x0c :: bs)
  | brIf {depth bs} (h : EncodesU32 depth bs) : Encodes (.brIf depth) (0x0d :: bs)
  | brTable {targets default b₁ b₂ b₃} (h₁ : EncodesU32 targets.length b₁)
      (h₂ : EncodesEach EncodesU32 targets b₂) (h₃ : EncodesU32 default b₃) :
      Encodes (.brTable targets default) (0x0e :: (b₁ ++ (b₂ ++ b₃)))
  | ret : Encodes .ret [0x0f]
  | call {func bs} (h : EncodesU32 func bs) : Encodes (.call func) (0x10 :: bs)
  | callIndirect {type table b₁ b₂} (h₁ : EncodesU32 type b₁) (h₂ : EncodesU32 table b₂) :
      Encodes (.callIndirect type table) (0x11 :: (b₁ ++ b₂))
  | drop : Encodes .drop [0x1a]
  | select : Encodes (.select none) [0x1b]
  | selectType {t bs} (h : EncodesU32 1 bs) : Encodes (.select (some t)) (0x1c :: (bs ++ [t.toByte]))
  | localGet {index bs} (h : EncodesU32 index bs) : Encodes (.localGet index) (0x20 :: bs)
  | localSet {index bs} (h : EncodesU32 index bs) : Encodes (.localSet index) (0x21 :: bs)
  | localTee {index bs} (h : EncodesU32 index bs) : Encodes (.localTee index) (0x22 :: bs)
  | globalGet {index bs} (h : EncodesU32 index bs) : Encodes (.globalGet index) (0x23 :: bs)
  | globalSet {index bs} (h : EncodesU32 index bs) : Encodes (.globalSet index) (0x24 :: bs)
  | load {op arg b bs} (h₁ : LoadOp.ofOpcode? b = some op) (h₂ : arg.Encodes bs) :
      Encodes (.load op arg) (b :: bs)
  | store {op arg b bs} (h₁ : StoreOp.ofOpcode? b = some op) (h₂ : arg.Encodes bs) :
      Encodes (.store op arg) (b :: bs)
  | memorySize : Encodes .memorySize [0x3f, 0x00]
  | memoryGrow : Encodes .memoryGrow [0x40, 0x00]
  | memoryCopy {bs} (h : EncodesU32 10 bs) : Encodes .memoryCopy (0xfc :: (bs ++ [0x00, 0x00]))
  | memoryFill {bs} (h : EncodesU32 11 bs) : Encodes .memoryFill (0xfc :: (bs ++ [0x00]))
  | constI32 {v bs} (h : Leb128.EncodesSigned 32 v.toInt32.toInt bs) :
      Encodes (.const (.i32 v)) (0x41 :: bs)
  | constI64 {v bs} (h : Leb128.EncodesSigned 64 v.toInt64.toInt bs) :
      Encodes (.const (.i64 v)) (0x42 :: bs)
  | constF32 {v} : Encodes (.const (.f32 v)) (0x43 :: bytesOfNat v.toNat 4)
  | constF64 {v} : Encodes (.const (.f64 v)) (0x44 :: bytesOfNat v.toNat 8)
  | numeric {op b} (h : NumOp.ofOpcode? b = some op) : Encodes (.numeric op) [b]
  | saturating {op n bs} (h₁ : EncodesU32 n bs) (h₂ : NumOp.saturating[n]? = some op) :
      Encodes (.numeric op) (0xfc :: bs)

/-- The bytes of a sequence: those of its elements, and an `end` behind each block. -/
inductive Code.Encodes : Code → List UInt8 → Prop where
  | nil : Encodes .nil []
  | plain {i rest b₁ b₂} (hi : i.IsPlain) (h₁ : i.embed.Encodes b₁) (h₂ : Encodes rest b₂) :
      Encodes (.plain i rest) (b₁ ++ b₂)
  | block {type body rest b₁ b₂ b₃} (h₁ : (Instr.block type).Encodes b₁) (h₂ : Encodes body b₂)
      (h₃ : Encodes rest b₃) :
      Encodes (.block type body rest) (b₁ ++ (b₂ ++ (0x0b :: b₃)))
  | loop {type body rest b₁ b₂ b₃} (h₁ : (Instr.loop type).Encodes b₁) (h₂ : Encodes body b₂)
      (h₃ : Encodes rest b₃) :
      Encodes (.loop type body rest) (b₁ ++ (b₂ ++ (0x0b :: b₃)))
  | ifThen {type body rest b₁ b₂ b₃} (h₁ : (Instr.ifThen type).Encodes b₁) (h₂ : Encodes body b₂)
      (h₃ : Encodes rest b₃) :
      Encodes (.ifThen type body rest) (b₁ ++ (b₂ ++ (0x0b :: b₃)))
  | ifElse {type thenBody elseBody rest b₁ b₂ b₃ b₄} (h₁ : (Instr.ifThen type).Encodes b₁)
      (h₂ : Encodes thenBody b₂) (h₃ : Encodes elseBody b₃) (h₄ : Encodes rest b₄) :
      Encodes (.ifElse type thenBody elseBody rest)
        (b₁ ++ (b₂ ++ (0x05 :: (b₃ ++ (0x0b :: b₄)))))

/-- The bytes of a function body: its code, closed by an `end`. -/
def Code.EncodesBody (code : Code) (bytes : List UInt8) : Prop :=
  ∃ bs, code.Encodes bs ∧ bytes = bs ++ [0x0b]

end WasmEngine
