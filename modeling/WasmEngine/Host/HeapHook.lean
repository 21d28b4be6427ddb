import WasmEngine.Heap
import WasmEngine.Host.Basic

/-!
# Host/HeapHook — the allocator as an import

A guest that imports `alloc(cell, size) -> ptr` gets the allocator of `Heap`, which works on the
guest's own memory.  The statistics are part of the embedder's state.
-/

namespace WasmEngine.Heap

/-- The signature under which a guest imports the allocator. -/
def signature : Signature := { params := [.i32, .i32], results := [.i32] }

/-- Answers a call of a guest. -/
def request : List Value → HeapM (Option Value)
  | [.i32 cell, .i32 size] => (fun ptr => some (.i32 ptr)) <$> alloc cell size
  | _ => throw .argumentMismatch

/-- Runs an operation of an allocator whose statistics are a part of the embedder's state. -/
def withStats {σ α : Type} (get : σ → HeapStats) (set : HeapStats → σ → σ) (op : HeapM α) :
    EStateM Error (σ × Memory) α := fun (host, memory) =>
  match op ⟨memory, get host⟩ with
  | .ok a ⟨memory, stats⟩ => .ok a (set stats host, memory)
  | .error e ⟨memory, stats⟩ => .error e (set stats host, memory)

/-- The allocator as a memory hook. -/
def hook {σ : Type} (id : Nat) (get : σ → HeapStats) (set : HeapStats → σ → σ) : MemoryHook σ where
  id
  signature
  run args := withStats get set (request args)

end WasmEngine.Heap
