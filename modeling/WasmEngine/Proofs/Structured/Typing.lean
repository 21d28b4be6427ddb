import WasmEngine.Proofs.Located.Compiled
import WasmEngine.Proofs.Structured.Semantics
import WasmEngine.Proofs.Syntax.Unique

/-!
# Proofs/Structured/Typing — well-typed code makes sense

The program of a compiled module is well typed, and typing is kept by execution: an instruction finds
the operands, locals and globals that it needs (`HasArrow.acts`), and whichever way code is left,
there are as many operands as its type says (`Program.Exec.fits`).
-/

namespace WasmEngine.Structured

/-! ## The program of a module -/

/-- The program of a module without imports: each function has the code that its body encodes. -/
structure Program.IsOf (p : Program) (m : Module) : Prop where
  types_eq : p.types = m.types
  size_eq : p.functions.size = m.functions.size
  type_eq : ∀ (i : Nat) (f : Function) (g : Func), m.functions[i]? = some f →
    p.functions[i]? = some g → g.type = f.type
  declared_eq : ∀ (i : Nat) (f : Function) (g : Func), m.functions[i]? = some f →
    p.functions[i]? = some g → g.declared = f.locals.length - f.type.params.length
  encodes : ∀ (i : Nat) (f : Function) (g : Func), m.functions[i]? = some f →
    p.functions[i]? = some g → g.code.EncodesBody (m.bytes.extract f.body.start f.body.stop).toList

/-- What compilation tells about a function of a program. -/
structure Func.IsOf (g : Func) (m : Module) (sideTable : SideTable) (f : Function) : Prop where
  isLocal : f.imported = none
  type_eq : g.type = f.type
  locals : g.type.params.length + g.declared = f.locals.length
  hasCode : ∃ stop, CodeContext.HasCode ⟨m, f⟩ sideTable g.code stop

/-- The setting: a compiled module without imports, its program, and a table with functions of it. -/
structure Setting (m : Module) (sideTable : SideTable) (p : Program) : Prop where
  compiled : m.IsCompiled sideTable
  isLocal : ∀ (i : Nat) (f : Function), m.functions[i]? = some f → f.imported = none
  program : p.IsOf m
  table : ∀ slot func : Nat, p.table[slot]? = some (some func) → func < m.functions.size

variable {m : Module} {sideTable : SideTable} {p : Program}

theorem Setting.exists_func (h : Setting m sideTable p) {i : Nat} {f : Function}
    (hf : m.functions[i]? = some f) : ∃ g, p.functions[i]? = some g ∧ g.IsOf m sideTable f := by
  have hi : i < p.functions.size := h.program.size_eq ▸ (Array.getElem?_eq_some_iff.1 hf).1
  have hg := Array.getElem?_eq_getElem hi
  have hl := h.isLocal i f hf
  obtain ⟨code, stop, hc⟩ := h.compiled.hasCode i f hf hl
  obtain ⟨declared, hd⟩ := (h.compiled.sound.fits i f hf hl).locals_eq
  refine ⟨_, hg, hl, h.program.type_eq i f _ hf hg, ?_, stop, ?_⟩
  · rw [h.program.type_eq i f _ hf hg, h.program.declared_eq i f _ hf hg, hd, List.length_append]
    omega
  · rwa [(h.program.encodes i f _ hf hg).unique hc.encodes]

theorem Setting.exists_function (h : Setting m sideTable p) {i : Nat} {g : Func}
    (hg : p.functions[i]? = some g) : ∃ f, m.functions[i]? = some f ∧ g.IsOf m sideTable f := by
  have hi : i < m.functions.size := h.program.size_eq ▸ (Array.getElem?_eq_some_iff.1 hg).1
  obtain ⟨g', hg', hof⟩ := h.exists_func (Array.getElem?_eq_getElem hi)
  obtain rfl := Option.some.inj (hg.symm.trans hg')
  exact ⟨_, Array.getElem?_eq_getElem hi, hof⟩

theorem Setting.signature?_eq (h : Setting m sideTable p) (f : Function) (type : BlockType) :
    p.signature? type = CodeContext.signature? ⟨m, f⟩ type := by
  cases type with
  | index n => exact congrArg (·[n]?) h.program.types_eq
  | _ => rfl

/-! ## Instructions -/

/-- A configuration of the function that `c` is about, with `n` operands. -/
structure Conf.Fits (c : CodeContext) (x : Conf) (n : Nat) : Prop where
  locals : x.locals.size = c.function.locals.length
  globals : x.globals.size = c.module.globals.size
  memory : x.memory.isSome = c.module.memory.isSome
  operands : x.operands.length = n

/-- What an action makes of a configuration, if there are `n` operands behind the instruction. -/
def Action.Fits (p : Program) (c : CodeContext) (types : LabelTypes) (n : Nat) : Action → Prop
  | next x => x.Fits c n
  | trap _ => True
  | branch depth x => ∃ ts k, types[depth]? = some ts ∧ ts.length ≤ k ∧ x.Fits c k
  | ret x => ∃ k, c.function.type.results.length ≤ k ∧ x.Fits c k
  | call f x => ∃ i k : Nat, p.functions[i]? = some f ∧ k + f.type.results.length = n ∧
      x.Fits c (f.type.params.length + k)

variable {f : Function} {types : LabelTypes} {x : Conf} {n : Nat}

theorem Conf.Fits.withOperands {c : CodeContext} (h : x.Fits c n) (vs : List Slot) :
    (x.withOperands vs).Fits c vs.length :=
  ⟨h.locals, h.globals, h.memory, rfl⟩

/-- The parameters that a block is entered with, and what stays below it. -/
theorem Conf.Fits.params {c : CodeContext} {ts : List ValType} {args : List Slot}
    (h : x.Fits c n) (hargs : args.length = ts.length) :
    (x.withOperands args).Fits c (known ts).length := by
  rw [List.length_map, ← hargs]
  exact h.withOperands args

theorem Conf.Fits.length_below {c : CodeContext} {k : Nat} {args below : List Slot}
    (h : x.Fits c (k + n)) (hops : x.operands = args ++ below) (hargs : args.length = k) :
    below.length = n := by
  have hlen := h.operands
  rw [hops, List.length_append] at hlen
  omega

section

variable {c : CodeContext}

/-- The operands that an instruction or a block takes, and those below them. -/
theorem Conf.Fits.exists_params {k : Nat} (h : x.Fits c n) (hk : k ≤ n) :
    ∃ args under, x.operands = args ++ under ∧ args.length = k := by
  refine ⟨x.operands.take k, x.operands.drop k, (List.take_append_drop ..).symm, ?_⟩
  rw [List.length_take, h.operands]
  exact Nat.min_eq_left hk

theorem Conf.Fits.exists_memory (h : x.Fits c n) (hm : c.module.memory.isSome = true) :
    ∃ mem, x.memory = some mem :=
  Option.isSome_iff_exists.1 (h.memory.trans hm)

theorem Conf.Fits.local_lt (h : x.Fits c n) {k : Nat} {t : ValType}
    (hk : c.function.locals[k]? = some t) : k < x.locals.size :=
  h.locals.symm ▸ (List.getElem?_eq_some_iff.1 hk).1

theorem Conf.Fits.global_lt (h : x.Fits c n) {k : Nat} {g : Global}
    (hk : c.module.globals[k]? = some g) : k < x.globals.size :=
  h.globals.symm ▸ (Array.getElem?_eq_some_iff.1 hk).1

theorem Conf.Fits.setLocal (h : x.Fits c n) (k : Nat) (v : Slot) (vs : List Slot) :
    Conf.Fits c { x with locals := x.locals.setIfInBounds k v, operands := vs } vs.length :=
  ⟨Array.size_setIfInBounds.trans h.locals, h.globals, h.memory, rfl⟩

theorem Conf.Fits.setGlobal (h : x.Fits c n) (k : Nat) (v : Slot) (vs : List Slot) :
    Conf.Fits c { x with globals := x.globals.setIfInBounds k v, operands := vs } vs.length :=
  ⟨h.locals, Array.size_setIfInBounds.trans h.globals, h.memory, rfl⟩

theorem Conf.Fits.setMemory (h : x.Fits c n) (hm : c.module.memory.isSome = true) (mem : Memory)
    (vs : List Slot) : Conf.Fits c { x with operands := vs, memory := some mem } vs.length :=
  ⟨h.locals, h.globals, hm.symm, rfl⟩

theorem Conf.Fits.ofValue (h : x.Fits c n) (vs : List Slot) (r : Except Trap Slot) :
    (Action.ofValue x vs r).Fits p c types (vs.length + 1) := by
  cases r with
  | ok v => exact h.withOperands (v :: vs)
  | error t => exact trivial

theorem Conf.Fits.ofLoad (h : x.Fits c n) (vs : List Slot) (op : LoadOp) (r : Except Error Nat) :
    (Action.ofLoad x vs op r).Fits p c types (vs.length + 1) := by
  cases r with
  | ok v => exact h.withOperands (_ :: vs)
  | error e => exact trivial

theorem Conf.Fits.ofUpdate (h : x.Fits c n) (hm : c.module.memory.isSome = true)
    (vs : List Slot) (r : EStateM.Result Error Memory Unit) :
    (Action.ofUpdate x vs r).Fits p c types vs.length := by
  cases r with
  | ok _ mem => exact h.setMemory hm mem vs
  | error e mem => exact trivial

end

/-- An indirect call finds a function, which is of the expected type, or traps. -/
theorem acts_callIndirect (hp : Setting m sideTable p) {type table j : Nat} {sig : Signature}
    (hsig : m.types[type]? = some sig) {k : Slot} {vs : List Slot} (hops : x.operands = k :: vs)
    (hx : (x.withOperands vs).Fits ⟨m, f⟩ (sig.params.length + j)) :
    ∃ a, p.act (.callIndirect type table) x = some a ∧
      a.Fits p ⟨m, f⟩ types (j + sig.results.length) := by
  simp only [Program.act, hops]
  match hslot : p.table[k.toUInt32.toNat]? with
  | none | some none => exact ⟨_, rfl, trivial⟩
  | some (some func) =>
    obtain ⟨g, hg, hof⟩ := hp.exists_func (Array.getElem?_eq_getElem (hp.table _ func hslot))
    have htype : p.types[type]? = some sig := by rw [hp.program.types_eq]; exact hsig
    simp only [hg, htype]
    refine ⟨_, rfl, ?_⟩
    split
    · next heq =>
      subst heq
      exact ⟨func, j, hg, rfl, hx⟩
    · exact trivial

/-- **A well-typed instruction does something**, and leaves the operands that its type says. -/
theorem acts_of_hasArrow (hp : Setting m sideTable p) {i : Instr Empty}
    {ps qs : List OperandType} (ha : HasArrow ⟨m, f⟩ types i ps qs) (hx : x.Fits ⟨m, f⟩ n)
    (hn : ps.length ≤ n) :
    ∃ a, p.act i x = some a ∧ a.Fits p ⟨m, f⟩ types (n - ps.length + qs.length) := by
  obtain ⟨args, rest, hsplit, hargs⟩ := hx.exists_params hn
  obtain ⟨locals, operands, globals, memory⟩ := x
  obtain rfl : operands = args ++ rest := hsplit
  have hrest : n - ps.length = rest.length := by
    have hlen : (args ++ rest).length = n := hx.operands
    rw [← hlen, List.length_append]
    omega
  rw [hrest]
  have hfits (vs : List Slot) : Conf.Fits ⟨m, f⟩ ⟨locals, vs, globals, memory⟩ vs.length :=
    hx.withOperands vs
  cases ha with
  | unreachable => exact ⟨_, rfl, trivial⟩
  | nop =>
    obtain rfl := List.length_eq_zero_iff.1 hargs
    exact ⟨_, rfl, hfits rest⟩
  | @br depth ts h ps' =>
    rw [List.length_append, List.length_map] at hargs
    exact ⟨_, rfl, ts, _, h, by rw [List.length_append]; omega, hfits (args ++ rest)⟩
  | @brIf depth ts h =>
    rw [List.length_append, List.length_map, List.length_singleton] at hargs
    obtain ⟨c, vs, rfl⟩ := List.exists_cons_of_length_eq_add_one hargs
    have hvs : (vs ++ rest).length = rest.length + (known ts).length := by
      rw [List.length_cons] at hargs
      rw [List.length_append, List.length_map]
      omega
    refine ⟨_, rfl, ?_⟩
    split
    · exact ⟨ts, _, h, by rw [hvs, List.length_map]; omega, hfits (vs ++ rest)⟩
    · exact hvs ▸ hfits (vs ++ rest)
  | @brTable targets default ts h ps' =>
    rw [List.length_append, List.length_append, List.length_singleton] at hargs
    obtain ⟨k, vs, rfl⟩ := List.exists_cons_of_length_eq_add_one hargs
    obtain ⟨us, hus, hmatch⟩ := h _ (chosen_mem k.toUInt32.toNat)
    have hlen := hmatch.length_eq
    rw [List.length_map] at hlen
    rw [List.length_cons] at hargs
    exact ⟨_, rfl, us, _, hus, by rw [List.length_append]; omega, hfits (vs ++ rest)⟩
  | ret ps' =>
    rw [List.length_append, List.length_map] at hargs
    exact ⟨_, rfl, _, by rw [List.length_append]; omega, hfits (args ++ rest)⟩
  | @call func g hg =>
    obtain ⟨g', hg', hof⟩ := hp.exists_func hg
    refine ⟨.call g' ⟨locals, args ++ rest, globals, memory⟩, ?_, func, rest.length, hg', ?_, ?_⟩
    · simp only [Program.act, hg', Option.map_some]
    · rw [List.length_map, hof.type_eq]
    · have h := hfits (args ++ rest)
      rwa [List.length_append, hargs, List.length_map, ← hof.type_eq] at h
  | @callIndirect type sig ht hsig =>
    rw [List.length_append, List.length_map, List.length_singleton] at hargs
    obtain ⟨k, vs, rfl⟩ := List.exists_cons_of_length_eq_add_one hargs
    have hvs := hfits (vs ++ rest)
    rw [List.length_append, Nat.succ.inj hargs] at hvs
    rw [List.length_map]
    exact acts_callIndirect hp hsig rfl hvs
  | drop t =>
    obtain ⟨v, rfl⟩ := List.length_eq_one_iff.1 hargs
    exact ⟨_, rfl, hfits rest⟩
  | select | selectType =>
    obtain ⟨c, b, a, rfl⟩ := List.length_eq_three.1 hargs
    exact ⟨_, rfl, hfits (_ :: rest)⟩
  | localGet ht =>
    obtain rfl := List.length_eq_zero_iff.1 hargs
    have hv := Array.getElem?_eq_getElem (hx.local_lt ht)
    exact ⟨.next ⟨locals, _ :: rest, globals, memory⟩,
      by simp only [Program.act, hv, Option.map_some]; rfl, hfits (_ :: rest)⟩
  | localSet ht =>
    obtain ⟨v, rfl⟩ := List.length_eq_one_iff.1 hargs
    exact ⟨_, if_pos (hx.local_lt ht), hx.setLocal _ v rest⟩
  | localTee ht =>
    obtain ⟨v, rfl⟩ := List.length_eq_one_iff.1 hargs
    exact ⟨_, if_pos (hx.local_lt ht), hx.setLocal _ v (v :: rest)⟩
  | globalGet hg =>
    obtain rfl := List.length_eq_zero_iff.1 hargs
    have hv := Array.getElem?_eq_getElem (hx.global_lt hg)
    exact ⟨.next ⟨locals, _ :: rest, globals, memory⟩,
      by simp only [Program.act, hv, Option.map_some]; rfl, hfits (_ :: rest)⟩
  | globalSet hg _ =>
    obtain ⟨v, rfl⟩ := List.length_eq_one_iff.1 hargs
    exact ⟨_, if_pos (hx.global_lt hg), hx.setGlobal _ v rest⟩
  | @load op arg hm _ =>
    obtain ⟨ptr, rfl⟩ := List.length_eq_one_iff.1 hargs
    obtain ⟨mem, rfl⟩ := hx.exists_memory hm
    exact ⟨_, rfl, hx.ofLoad rest op _⟩
  | store hm _ =>
    obtain ⟨v, ptr, rfl⟩ := List.length_eq_two.1 hargs
    obtain ⟨mem, rfl⟩ := hx.exists_memory hm
    exact ⟨_, rfl, hx.ofUpdate hm rest _⟩
  | memorySize hm =>
    obtain rfl := List.length_eq_zero_iff.1 hargs
    obtain ⟨mem, rfl⟩ := hx.exists_memory hm
    exact ⟨_, rfl, hfits (_ :: rest)⟩
  | memoryGrow hm =>
    obtain ⟨k, rfl⟩ := List.length_eq_one_iff.1 hargs
    obtain ⟨mem, rfl⟩ := hx.exists_memory hm
    exact ⟨_, rfl, hx.setMemory hm _ (_ :: rest)⟩
  | memoryCopy hm =>
    obtain ⟨len, src, dst, rfl⟩ := List.length_eq_three.1 hargs
    obtain ⟨mem, rfl⟩ := hx.exists_memory hm
    exact ⟨_, rfl, hx.ofUpdate hm rest _⟩
  | memoryFill hm =>
    obtain ⟨len, value, dst, rfl⟩ := List.length_eq_three.1 hargs
    obtain ⟨mem, rfl⟩ := hx.exists_memory hm
    exact ⟨_, rfl, hx.ofUpdate hm rest _⟩
  | const v =>
    obtain rfl := List.length_eq_zero_iff.1 hargs
    exact ⟨_, rfl, hfits (_ :: rest)⟩
  | numeric op =>
    cases op with
    | unary op =>
      obtain ⟨a, rfl⟩ := List.length_eq_one_iff.1 hargs
      exact ⟨_, rfl, hx.ofValue rest _⟩
    | binary op =>
      obtain ⟨b, a, rfl⟩ := List.length_eq_two.1 hargs
      exact ⟨_, rfl, hx.ofValue rest _⟩

/-! ## Code -/

variable {code body rest : Code} {ts us : List OperandType}

/-- A well-typed sequence goes on well typed behind its first instruction. -/
theorem acts_of_hasType (hp : Setting m sideTable p) {i : Instr Empty}
    (ht : CodeContext.HasType ⟨m, f⟩ types (.plain i rest) ts us) (hx : x.Fits ⟨m, f⟩ ts.length) :
    ∃ a ts', p.act i x = some a ∧ a.Fits p ⟨m, f⟩ types ts'.length ∧
      CodeContext.HasType ⟨m, f⟩ types rest ts' us := by
  cases ht with
  | @plain _ _ _ xs ts ps qs _ ha hm hrest =>
    have hlen := hm.length_eq
    rw [List.length_append] at hx
    obtain ⟨a, hact, hfits⟩ := acts_of_hasArrow hp ha hx (by omega)
    refine ⟨a, xs ++ qs, hact, ?_, hrest⟩
    rwa [hlen, Nat.add_sub_cancel, ← List.length_append] at hfits

/-- An `if` finds its condition above its parameters. -/
theorem Conf.Fits.exists_condition {c : CodeContext} {xs : List OperandType}
    {params : List ValType} (h : x.Fits c (xs ++ ts).length)
    (hm : MatchAll ts (known params ++ [some .i32])) :
    ∃ v vs, x.operands = v :: vs ∧ vs.length = params.length + xs.length := by
  have hlen := hm.length_eq
  have hops := h.operands
  rw [List.length_append, List.length_map, List.length_singleton] at hlen
  rw [List.length_append, hlen, ← Nat.add_assoc] at hops
  obtain ⟨v, vs, heq⟩ := List.exists_cons_of_length_eq_add_one hops
  rw [heq, List.length_cons] at hops
  exact ⟨v, vs, heq, by omega⟩

/-- A well-typed block is entered with its parameters. -/
theorem fits_of_opened (ht : CodeContext.HasType ⟨m, f⟩ types code ts us)
    (hx : x.Fits ⟨m, f⟩ ts.length) {type : BlockType} {y : Conf}
    (ho : opened? code x = some (type, body, rest, y)) :
    ∃ sig xs, CodeContext.signature? ⟨m, f⟩ type = some sig ∧
      y.Fits ⟨m, f⟩ (sig.params.length + List.length xs) ∧
      CodeContext.HasType ⟨m, f⟩ (sig.results :: types) body (known sig.params)
        (known sig.results) ∧
      CodeContext.HasType ⟨m, f⟩ types rest (xs ++ known sig.results) us := by
  cases ht with
  | nil | plain | loop => cases ho
  | @block _ type sig body rest xs ts _ hs hbody hm hrest =>
    cases ho
    have hlen := hm.length_eq
    rw [List.length_append, hlen, List.length_map, Nat.add_comm] at hx
    exact ⟨sig, xs, hs, hx, hbody, hrest⟩
  | @ifThen _ type sig body rest xs ts _ hs heq hbody hm hrest =>
    obtain ⟨c, vs, hops, hvs⟩ := hx.exists_condition hm
    simp only [opened?, hops] at ho
    cases ho
    refine ⟨sig, xs, hs, hvs ▸ hx.withOperands vs, ?_, hrest⟩
    split
    · exact hbody
    · exact .nil (heq ▸ MatchAll.refl _)
  | @ifElse _ type sig thenBody elseBody rest xs ts _ hs hthen helse hm hrest =>
    obtain ⟨c, vs, hops, hvs⟩ := hx.exists_condition hm
    simp only [opened?, hops] at ho
    cases ho
    refine ⟨sig, xs, hs, hvs ▸ hx.withOperands vs, ?_, hrest⟩
    split
    · exact hthen
    · exact helse

/-- A well-typed loop is entered with its parameters. -/
theorem fits_of_loop {type : BlockType}
    (ht : CodeContext.HasType ⟨m, f⟩ types (.loop type body rest) ts us)
    (hx : x.Fits ⟨m, f⟩ ts.length) :
    ∃ sig xs, CodeContext.signature? ⟨m, f⟩ type = some sig ∧
      x.Fits ⟨m, f⟩ (sig.params.length + List.length xs) ∧
      CodeContext.HasType ⟨m, f⟩ (sig.params :: types) body (known sig.params)
        (known sig.results) ∧
      CodeContext.HasType ⟨m, f⟩ types rest (xs ++ known sig.results) us := by
  cases ht with
  | @loop _ type sig body rest xs ts _ hs hbody hm hrest =>
    have hlen := hm.length_eq
    rw [List.length_append, hlen, List.length_map, Nat.add_comm] at hx
    exact ⟨sig, xs, hs, hx, hbody, hrest⟩

/-- How well-typed code that ends with `n` operands can be left. -/
def Exit.Fits (c : CodeContext) (types : LabelTypes) (n : Nat) : Exit → Prop
  | normal x => x.Fits c n
  | branch depth x => ∃ ts k, types[depth]? = some ts ∧ ts.length ≤ k ∧ x.Fits c k
  | ret x => ∃ k, c.function.type.results.length ≤ k ∧ x.Fits c k
  | trap _ _ => True

namespace Exit

variable {e e' : Exit} {c : CodeContext} {below : List Slot} {z : Conf} {k : Nat}
  {label : List ValType}

/-- The operands that a block leaves above others. -/
theorem Fits.closed (h : e.Fits c (label :: types) k) (hz : e.closed? n below = some z) :
    z.Fits c (n + below.length) := by
  cases e with
  | normal x =>
    simp only [closed?] at hz
    split at hz
    · next heq =>
      cases hz
      exact ⟨h.locals, h.globals, h.memory, by rw [Conf.withOperands, List.length_append, heq]⟩
    · cases hz
  | branch depth x =>
    obtain ⟨_, _, -, -, h⟩ := h
    cases depth with
    | zero =>
      simp only [closed?] at hz
      split at hz
      · next hle =>
        cases hz
        exact ⟨h.locals, h.globals, h.memory, by
          rw [Conf.withOperands, List.length_append, List.length_take, Nat.min_eq_left hle]⟩
      · cases hz
    | succ depth => cases hz
  | ret x | trap t x => cases hz

/-- Behind a block, its results are above what was below it. -/
theorem Fits.behind {results : List ValType} {xs : List OperandType}
    (h : e.Fits c (label :: types) k) (hz : e.closed? results.length below = some z)
    (hbelow : below.length = xs.length) : z.Fits c (xs ++ known results).length := by
  rw [List.length_append, List.length_map, ← hbelow, Nat.add_comm]
  exact h.closed hz

theorem closed?_eq_of_again? (h : e.again? n below = some z) : e.closed? n below = some z := by
  cases e with
  | branch depth x => cases depth <;> exact h
  | normal x | ret x | trap t x => cases h

theorem closed?_eq_of_passed? (h : e.passed? n below = some z) : e.closed? n below = some z := by
  cases e with
  | normal x => exact h
  | branch depth x | ret x | trap t x => cases h

theorem Fits.outer (h : e.Fits c (label :: types) k) (he : e.outer? = some e') :
    e'.Fits c types n := by
  cases e with
  | normal x => cases he
  | branch depth x =>
    cases depth with
    | zero => cases he
    | succ depth =>
      cases he
      exact h
  | ret x | trap t x =>
    cases he
    exact h

/-- The results of a function are those of its end, of a branch to its end, or of a return. -/
theorem Fits.returned {values : List Slot} (h : e.Fits c types k)
    (hr : e.returned? n = some (values, z)) : values.length = n ∧ ∃ k, z.Fits c k := by
  have hkey {x : Conf} {k : Nat} (hx : x.Fits c k)
      (hr : (if n ≤ x.operands.length then some (x.operands.take n, x) else none) =
        some (values, z)) : values.length = n ∧ ∃ k, z.Fits c k := by
    split at hr
    · next hle =>
      cases hr
      exact ⟨by rw [List.length_take, Nat.min_eq_left hle], k, hx⟩
    · cases hr
  cases e with
  | normal x => exact hkey h hr
  | branch depth x =>
    obtain ⟨_, _, -, -, hx⟩ := h
    cases depth with
    | zero => exact hkey hx hr
    | succ depth => cases hr
  | ret x =>
    obtain ⟨_, -, hx⟩ := h
    exact hkey hx hr
  | trap t x => cases hr

end Exit

/-- A function is entered with its arguments and zeros. -/
theorem Func.IsOf.fits_enter {g : Func} {f' : Function} {y : Conf} {args : List Slot}
    (h : g.IsOf m sideTable f') (hglobals : y.globals.size = m.globals.size)
    (hmemory : y.memory.isSome = m.memory.isSome) (hargs : args.length = g.type.params.length) :
    (y.enter g args).Fits ⟨m, f'⟩ 0 where
  locals := by
    rw [Conf.enter, Array.size_append, Array.size_replicate, ← h.locals, ← hargs]
    exact congrArg (· + g.declared) List.length_reverse
  globals := hglobals
  memory := hmemory
  operands := rfl

/-- **Well-typed code is left as its type says.** -/
theorem Program.Exec.fits (hp : Setting m sideTable p) {e : Exit} (h : p.Exec code x e)
    (ht : CodeContext.HasType ⟨m, f⟩ types code ts us) (hx : x.Fits ⟨m, f⟩ ts.length) :
    e.Fits ⟨m, f⟩ types us.length := by
  induction h generalizing f types ts us with
  | nil =>
    cases ht with
    | nil hm => exact hm.length_eq ▸ hx
  | next hact _ ih =>
    obtain ⟨a, ts', hact', hfits, hrest⟩ := acts_of_hasType hp ht hx
    obtain rfl := Option.some.inj (hact.symm.trans hact')
    exact ih hrest hfits
  | trap => trivial
  | branch hact | ret hact =>
    obtain ⟨a, ts', hact', hfits, -⟩ := acts_of_hasType hp ht hx
    obtain rfl := Option.some.inj (hact.symm.trans hact')
    exact hfits
  | call hact hops hargs _ hret _ ihb ih =>
    obtain ⟨a, ts', hact', hfits, hrest⟩ := acts_of_hasType hp ht hx
    obtain rfl := Option.some.inj (hact.symm.trans hact')
    obtain ⟨i, k, hg, hk, hy⟩ := hfits
    obtain ⟨f', -, hof⟩ := hp.exists_function hg
    obtain ⟨stop, hcode⟩ := hof.hasCode
    have hbody := ihb (hcode.typed) (hof.fits_enter hy.globals hy.memory hargs)
    obtain ⟨hvalues, _, hz⟩ := hbody.returned hret
    refine ih hrest ⟨hy.locals, hz.globals, hz.memory, ?_⟩
    have hlen := hy.operands
    rw [hops, List.length_append] at hlen
    rw [Conf.resume, List.length_append, hvalues]
    omega
  | callTrap => trivial
  | block ho hs hops hargs _ hclose _ ihb ih =>
    obtain ⟨sig', xs, hsig, hy, hbody, hrest⟩ := fits_of_opened ht hx ho
    obtain rfl := Option.some.inj (hs.symm.trans ((hp.signature?_eq f _).trans hsig))
    have hin := ihb hbody (hy.params hargs)
    exact ih hrest (hin.behind hclose (hy.length_below hops hargs))
  | blockExit ho hs hops hargs _ hexit ihb =>
    obtain ⟨sig', xs, hsig, hy, hbody, -⟩ := fits_of_opened ht hx ho
    obtain rfl := Option.some.inj (hs.symm.trans ((hp.signature?_eq f _).trans hsig))
    exact (ihb hbody (hy.params hargs)).outer hexit
  | loop hs hops hargs _ hpass _ ihb ih =>
    obtain ⟨sig', xs, hsig, hy, hbody, hrest⟩ := fits_of_loop ht hx
    obtain rfl := Option.some.inj (hs.symm.trans ((hp.signature?_eq f _).trans hsig))
    have hin := ihb hbody (hy.params hargs)
    exact ih hrest (hin.behind (Exit.closed?_eq_of_passed? hpass) (hy.length_below hops hargs))
  | loopAgain hs hops hargs _ hagain _ ihb ih =>
    obtain ⟨sig', xs, hsig, hy, hbody, hrest⟩ := fits_of_loop ht hx
    obtain rfl := Option.some.inj (hs.symm.trans ((hp.signature?_eq f _).trans hsig))
    have hin := ihb hbody (hy.params hargs)
    exact ih (.loop hsig hbody (MatchAll.refl _) hrest)
      (hin.behind (Exit.closed?_eq_of_again? hagain) (hy.length_below hops hargs))
  | loopExit hs hops hargs _ hexit ihb =>
    obtain ⟨sig', xs, hsig, hy, hbody, -⟩ := fits_of_loop ht hx
    obtain rfl := Option.some.inj (hs.symm.trans ((hp.signature?_eq f _).trans hsig))
    exact (ihb hbody (hy.params hargs)).outer hexit

end WasmEngine.Structured
