/-!
# Text/Hex — lower-case hexadecimal numerals

`hex n` is the shortest base-sixteen numeral of `n`; messages write addresses and offsets with it.
-/

namespace WasmEngine

/-- The hexadecimal numeral of `n`, in lower case and without leading zeros. -/
def hex (n : Nat) : String := String.ofList (Nat.toDigits 16 n)

example : hex 0 = "0" ∧ hex 0x1f40 = "1f40" := by decide

end WasmEngine
