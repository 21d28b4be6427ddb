import WasmEngine.Proofs.Memory.Work
import WasmEngine.Proofs.Safety.Reachable

/-!
# Proofs/Safety/Visited — stores in the middle of a run

Host functions, and whoever they call, see stores that are not between two operations of the embedder
but in the middle of one.  `Store.Opens` are the configurations in which operations start the machine,
and `Store.Visited` adds the stores of their runs to the reachable ones.  Instances are sound in these,
too.
-/

namespace WasmEngine

variable {σ : Type} {loaded : List LoadedModule} {T : Memory → Memory → Prop}

/-- Imports that change memory as a relation allows. -/
def Imports.Obeys (T : Memory → Memory → Prop) (imports : Imports σ) : Prop :=
  ∀ ref binding, imports.get? ref = some binding → binding.Obeys T

namespace Store

/-- The configurations in which an embedder starts the machine: it calls functions, and instantiates
compiled modules with imports that declare at most one result.  Whatever it brings along changes
memory as a relation allows. -/
inductive Opens (T : Memory → Memory → Prop) (loaded : List LoadedModule) (s : Store σ) :
    Config σ → Prop where
  | call {i callee args holds} (hi : i < s.instances.size) (hgenuine : callee.IsGenuine s)
      (hholds : (s.acquireAll holds).1 = .ok ())
      (hhonest : (s.callConfig i callee args holds).IsHonest) :
      Opens T loaded s (s.callConfig i callee args holds)
  | standalone {f args} (hobeys : ∀ site args, HostM.Obeys T (f.body site args))
      (hhonest : (s.standaloneConfig f args).IsHonest) : Opens T loaded s (s.standaloneConfig f args)
  | start {m imports limits inst func} (hm : m ∈ loaded) (himports : imports.HaveOneResult)
      (hobeys : imports.Obeys T) (halloc : Instance.allocate m imports limits = .ok inst)
      (hfunc : m.module.start = some func) (hhonest : (s.startConfig inst func).IsHonest) :
      Opens T loaded s (s.startConfig inst func)

/-- **In the middle of a run all instances are sound.** -/
theorem Opens.outline_sound {s : Store σ} {c : Config σ} (hc : s.Opens T loaded c)
    (hsound : s.outline.IsSound loaded) (n : Nat) : (Config.run n c).store.outline.IsSound loaded := by
  have hany : AllowsRuntime fun _ => True := fun _ _ => trivial
  cases hc with
  | @call i callee args holds hi hgenuine hholds hhonest =>
    have hstart : (s.callConfig i callee args holds).IsSound (fun _ => True) s.outline _ :=
      callConfig_sound hany hsound hi hgenuine hholds fun _ _ _ => trivial
    rw [(hstart.run (n := n) hany hsound hhonest fun _ _ _ _ => trivial).outline_eq]
    exact hsound
  | @standalone f args hobeys hhonest =>
    have hstart := s.standaloneConfig_sound f args
    rw [(hstart.run (n := n) hany hsound hhonest fun _ _ _ _ => trivial).outline_eq]
    exact hsound
  | start hm himports hobeys halloc hfunc hhonest =>
    obtain ⟨hpush, hinst, hmodule⟩ := hsound.push_of_allocate hm himports halloc
    have hstart := startConfig_sound hsound hm hinst hmodule hfunc
    rw [(hstart.run (n := n) hany hpush hhonest fun _ _ _ _ => trivial).outline_eq]
    exact hpush

/-- The stores that an embedder and its host functions get to see: between operations, and while
something runs. -/
inductive Visited (loaded : List LoadedModule) : Store σ → Prop where
  | between {s} (h : Reachable loaded s) : Visited loaded s
  | during {s c} (h : Reachable loaded s) (hc : s.Opens (fun _ _ => True) loaded c) (n : Nat) :
      Visited loaded (Config.run n c).store

/-- **Whoever looks, instances are sound.** -/
theorem Visited.outline_sound {s : Store σ} (h : Visited loaded s) : s.outline.IsSound loaded := by
  cases h with
  | between h => exact h.outline_sound
  | during h hc n => exact hc.outline_sound h.outline_sound n

end Store

end WasmEngine
