import SynthesisRepo.Clkbufmap.Reconnect

/-! # The pass over a design

`ClkbufmapPass::module_queue` (lines 67-78), which orders the modules below the selected
ones so that every module comes after the modules it instantiates, and the rest of
`ClkbufmapPass::execute` (lines 122-159 and the module loop): `buffer_inputs`, the order,
and the loop that extracts the tags of blackboxes and runs `processModule` on the others.

The recursion of `module_queue` has no cycle check; the model runs it on fuel, and a
design whose hierarchy is cyclic exhausts any fuel, as the C++ exhausts its stack.
-/

namespace SynthesisRepo.Clkbufmap

open Rtlil

/-- `module_queue`, on fuel: modules are kept by name, which identifies them in a design.
The pair is `(modules_sorted, modules_processed)`. -/
def moduleQueue (design : Design) :
    Nat → Module → List IdString × List IdString → Option (List IdString × List IdString)
  | 0, _, _ => none
  | fuel + 1, module, queue =>
    if module.name ∈ queue.2 then some queue
    else do
      let queue ← module.cells.foldlM (fun queue cell =>
        (design.module cell.type).elim (some queue) fun submodule =>
          moduleQueue design fuel submodule queue) queue
      pure (queue.1 ++ [module.name], queue.2 ++ [module.name])

/-- Lines 133-136: `module_queue` on every root in turn, with one shared
`modules_processed`. -/
def queueModules (design : Design) (fuel : Nat) (roots : List Module) :
    Option (List IdString × List IdString) :=
  roots.foldlM (fun queue root => moduleQueue design fuel root queue) ([], [])

/-- Lines 123-130: buffer top-level clock inputs with both cells, unless the pad cell type
is a module whose port named like the buffer's sink-side port is a `clkbuf_driver`. -/
def bufferInputs (design : Design) (options : Options) : Bool :=
  match design.module (escapeId options.inpadCelltype) with
  | some inpad => match inpad.wire (escapeId options.bufPortname) with
    | some wire => !wire.attributes.clkbufDriver
    | none => true
  | none => true

/-- What the module loop carries: the design, the tag tables and the `autoidx` counter. -/
structure RunState where
  design : Design
  tables : TagTables
  autoidx : Nat

/-- One iteration of the module loop (lines 138-415), on the module named `name` as the
design holds it when the loop reaches it. -/
def processNamed (celltypes : IdString → Option (IdString → Bool))
    (mkSigMap : (conns : List (SigBit × SigBit)) → SigMap conns) (context : Context)
    (state : RunState) (name : IdString) : Option RunState := do
  let module ← state.design.module name
  if module.blackbox then
    let tables ← blackboxTags module state.tables
    pure { state with tables }
  else
    let (module', tables, autoidx) ←
      processModule { context with output := state.design.output celltypes } state.tables
        state.autoidx module (mkSigMap module.connections)
    pure ⟨state.design.update module', tables, autoidx⟩

/-- `ClkbufmapPass::execute` on `design` with arguments `args`: the error it stops with,
or the design and counter it leaves (nothing when the C++ code would crash, or when the
hierarchy is cyclic).  `selectedModule` and `selected` are the active selection,
`celltypes` the kernel's library of internal cells, `mkSigMap` the kernel's `SigMap`
constructor and `hash` the bit hash. -/
def execute (celltypes : IdString → Option (IdString → Bool)) (selectedModule : IdString → Bool)
    (selected : IdString → IdString → Bool) (hash : SigBit → Nat)
    (mkSigMap : (conns : List (SigBit × SigBit)) → SigMap conns)
    (args : List String) (design : Design) (autoidx : Nat) :
    Except String (Option (Design × Nat)) := do
  let options ← executeOptions args
  let context : Context :=
    ⟨options, bufferInputs design options, design.output celltypes, selected, hash⟩
  pure do
    let (sorted, _) ← queueModules design (design.modules.length + 1)
      (design.modules.filter fun module => selectedModule module.name)
    let final ← sorted.foldlM (processNamed celltypes mkSigMap context)
      ⟨design, .empty, autoidx⟩
    pure (final.design, final.autoidx)

end SynthesisRepo.Clkbufmap
