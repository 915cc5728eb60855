import SynthesisRepo.Clkbufmap.Insert

/-! # Driver reconnection and the module pass

Lines 370-414 of `ClkbufmapPass::execute`: every driver of a buffered canonical bit is
moved onto the new wire on the buffer's source side (repointing the `BUFR`/`BUFIO` cells
indexed under the bit's hash), then the rebuilt input ports take over the names of the
old ones and the port list is recomputed.  `processModule` assembles the whole body of
the module loop for an ordinary (not blackbox) module, lines 160-414.
-/

namespace SynthesisRepo.Clkbufmap

open Rtlil

section Reconnection

variable (context : Context) (sigmap : SigBit → SigBit)
  (bufferedBits : SigBit → Option (Nat × Nat)) (bufrMap : Nat → List Nat)

/-- Lines 389-393: every bit of the `I` port of cell `id` becomes the wire `iwire`. -/
def repointBufr (iwire : Nat) (module : Module) (id : Nat) : Option Module := do
  let cell ← module.cellById id
  let bufrI ← cell.getPort (.id "\\I")
  pure (module.updateCell id fun cell => cell.setPort (.id "\\I") (bufrI.map fun _ => .wire iwire 0))

/-- Lines 377-398, for one bit of an output port of cell `id`: a bit whose canonical bit
got a buffer, other than the buffer's own output, moves to the buffer's source-side wire,
after the indexed secondary cells are repointed there. -/
def reconnectBit (id : Nat) (acc : Module × List SigBit × Bool) (bit : SigBit) :
    Option (Module × List SigBit × Bool) :=
  let (module, bits, newsig) := acc
  match bufferedBits (sigmap bit) with
  | none => some (module, bits ++ [bit], newsig)
  | some (cell, iwire) =>
    if id = cell then some (module, bits ++ [bit], newsig)
    else do
      let module ← (bufrMap (context.hash (sigmap bit))).foldlM (repointBufr iwire) module
      pure (module, bits ++ [.wire iwire 0], true)

/-- Lines 372-400, for port `port` of cell `id`, read as it is when the loop reaches it. -/
def reconnectPort (id : Nat) (module : Module) (port : IdString) : Option Module := do
  let cell ← module.cellById id
  if !context.output cell.type port then pure module
  else
    let signal ← cell.getPort port
    let (module, bits, newsig) ← signal.foldlM (reconnectBit context sigmap bufferedBits bufrMap id)
      (module, [], false)
    pure (if newsig then module.updateCell id fun cell => cell.setPort port bits else module)

/-- Lines 371-401: the loop over the cells, each over the ports it had when reached. -/
def reconnectDrivers (module : Module) : Option Module :=
  module.cells.foldlM (fun module cell => do
    let current ← module.cellById cell.id
    current.connections.foldlM (fun module entry =>
      reconnectPort context sigmap bufferedBits bufrMap cell.id module entry.1) module) module

end Reconnection

/-- Lines 404-412: the new wire of each rebuilt input port takes the old wire's name,
and the old wire becomes an internal wire without attributes. -/
def swapInputs (module : Module) (queue : List (Nat × Nat)) : Module :=
  queue.foldl (fun module entry =>
    match module.wireById entry.1, module.wireById entry.2 with
    | some wire, some newWire =>
      (module.swapNames newWire wire).updateWire wire.id fun wire =>
        { wire with attributes := .empty, portId := 0, portInput := false, portOutput := false }
    | _, _ => module) module

/-- Lines 269-368: the second wire loop, from the tag tables' sink ports and the buffered
ports the first loop left, and the publication of newly buffered output ports. -/
def insertBuffers (context : Context) (module : Module) (sigmap : SigBit → SigBit) (tags : InvState)
    (autoidx : Nat) (sinkPorts bufPorts : Finset PortKey) : InsertState :=
  publishOutputs context module sigmap
    (module.wires.foldl (insertWire context module sigmap tags (drivenWireBits context.output module))
      ⟨module, autoidx, sinkPorts, bufPorts, fun _ => none, []⟩)

/-- Lines 160-414: the pass on an ordinary module, given the tag tables built so far, the
counter `autoidx` and the module's `SigMap`.  It returns the module, the tag tables for
the modules processed later, and the counter; or nothing when a lookup of the C++ code
would throw or an assertion fail. -/
def processModule (context : Context) (tables : TagTables) (autoidx : Nat) (module : Module)
    (sigmap : SigMap module.connections) : Option (Module × TagTables × Nat) := do
  let start : InvState :=
    ⟨collectBits sigmap tables.sinkPorts module, collectBits sigmap tables.bufPorts module⟩
  let tags ← propagateInverters tables sigmap module start
  let collected := collectBufBits context module sigmap module.wires tables.bufPorts
  let bufrMap ← bufrCellsMap context collected.1 module.cells
  let published := insertBuffers context module sigmap tags autoidx tables.sinkPorts collected.2
  let reconnected ← reconnectDrivers context sigmap published.bufferedBits bufrMap published.module
  pure ((swapInputs reconnected published.inputQueue).fixupPorts,
    { tables with sinkPorts := published.sinkPorts, bufPorts := published.bufPorts },
    published.autoidx)

end SynthesisRepo.Clkbufmap
