import Mathlib
import WasmEngine.Proofs.Decode.Bodies
import WasmEngine.Proofs.Typing.Code

/-!
# Proofs/Typing/Validity — validation decides the type system

`Module.validateFunction_iff_hasBody` puts the pieces together: in a decoded module, a function with
a body passes validation exactly if the bytes of the body encode code that has the type declared.
-/

namespace WasmEngine.Module

/-- **Validation decides the declarative type system.**  In a decoded module, a function that is not
imported passes exactly if its bytes are the encoding of code, closed by an `end`, that takes the
empty stack to the results of the function. -/
theorem validateFunction_iff_hasBody {bytes : ByteArray} {m : Module} {func : Nat} {f : Function}
    (hdecode : decode bytes = .ok m) (hf : m.functions[func]? = some f)
    (hlocal : f.imported = none) :
    (∃ table, m.validateFunction func = .ok table) ↔
      ∃ code : Code, code.EncodesBody (bytes.extract f.body.start f.body.stop).toList ∧
        CodeContext.HasBody ⟨m, f⟩ code := by
  obtain ⟨hsound, rfl, -⟩ := decode_sound hdecode
  have hfits := hsound.fits func f hf hlocal
  exact exists_validateFunction_iff hf hfits.start_le hfits.stop_le

/-- A module of one function from `i32` to `i32`, exported as `f`, whose code is
`local.get 0; if (result i32) i32.const 7 else unreachable end`. -/
def sampleBytes : ByteArray :=
  ⟨#[0x00, 0x61, 0x73, 0x6d, 0x01, 0x00, 0x00, 0x00, 0x01, 0x06, 0x01, 0x60, 0x01, 0x7f, 0x01, 0x7f,
    0x03, 0x02, 0x01, 0x00, 0x07, 0x05, 0x01, 0x01, 0x66, 0x00, 0x00, 0x0a, 0x0d, 0x01, 0x0b, 0x00,
    0x20, 0x00, 0x04, 0x7f, 0x41, 0x07, 0x05, 0x00, 0x0b, 0x0b]⟩

/-- What `sampleBytes` decode to. -/
def sample : Module :=
  let type : Signature := { params := [.i32], results := [.i32] }
  { bytes := sampleBytes, types := #[type]
    functions := #[{ typeIndex := 0, type, locals := [.i32], body := ⟨32, 42⟩ }]
    exports := [{ name := "f", kind := .func, index := 0 }] }

theorem decode_sampleBytes : decode sampleBytes = .ok sample := by decide +kernel

/-- Where the blocks of the sample go on. -/
def sampleTable : SideTable :=
  [(34, { body := 36, elseBody := some 39, stop := 41, paramCount := 0, resultCount := 1 })]

/-- What `sampleBytes` compile to. -/
def compiledSample : Module := { sample with sideTable := some sampleTable }

theorem compile_sampleBytes : compile sampleBytes = .ok compiledSample := by decide +kernel

/-- The function of the sample is accepted exactly if its body spells typed code. -/
theorem validateFunction_sample :
    ∃ f, sample.functions[0]? = some f ∧ f.imported = none ∧
      ((∃ table, sample.validateFunction 0 = .ok table) ↔
        ∃ code : Code, code.EncodesBody (sampleBytes.extract f.body.start f.body.stop).toList ∧
          CodeContext.HasBody ⟨sample, f⟩ code) :=
  ⟨_, rfl, rfl, validateFunction_iff_hasBody decode_sampleBytes rfl rfl⟩

end WasmEngine.Module
