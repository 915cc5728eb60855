import SynthesisRepo.Clkbufmap.Inverters
import SynthesisRepo.Clkbufmap.Options

/-! # Buffer insertion

Lines 219-368 of `ClkbufmapPass::execute`, for one module: the first wire loop that lists
the canonical bits of the wires considered (`buf_bits`) and the index of secondary
`BUFR`/`BUFIO` cells built from it, the second wire loop that decides bit by bit whether
to insert a buffer (and a pad), records the substitution `buffered_bits` and rebuilds
input ports, and the publication of newly buffered output ports.
-/

namespace SynthesisRepo.Clkbufmap

open Rtlil

/-- What one run of the pass reads and never changes: its options, `buffer_inputs`, the
port directions of cell types (`Cell::output`), the selection (`Module::selected(wire)`,
by module and wire name) and the bit hash keying `bufr_cells_map`. -/
structure Context where
  options : Options
  bufferInputs : Bool
  output : IdString → IdString → Bool
  selected : IdString → IdString → Bool
  hash : SigBit → Nat

/-- What the second wire loop changes: the module, the `autoidx` counter, the tag tables
it publishes into, `buffered_bits` (a canonical bit to the inserted cell and the new wire
on its source side) and `input_queue` (old and new wire of each rebuilt input port). -/
structure InsertState where
  module : Module
  autoidx : Nat
  sinkPorts : Finset PortKey
  bufPorts : Finset PortKey
  bufferedBits : SigBit → Option (Nat × Nat)
  inputQueue : List (Nat × Nat)

/-- `SigSpec::as_bit`, which asserts a width of one. -/
def asBit : SigSpec → Option SigBit
  | [bit] => some bit
  | _ => none

/-- A new cell of `type` with identity and `NEW_ID` name `id`, whose ports are set in
order by `setPort`. -/
def newCell (id : Nat) (type : IdString) (ports : List (IdString × SigSpec)) : Cell :=
  ports.foldl (fun cell port => cell.setPort port.1 port.2) ⟨id, .auto id, type, []⟩

section Insertion

variable (context : Context) (module : Module) (sigmap : SigBit → SigBit)

/-- Whether the second loop considers `wire` (lines 274-276). -/
def processWire (wire : Wire) : Bool :=
  context.selected module.name wire.name &&
    !(!context.options.select && wire.attributes.clkbufInhibit)

/-- Lines 224-252, for one wire: the canonical bits of a wire considered join `buf_bits`;
a wire left out that is an output port is published as buffered. -/
def collectBufBit (acc : List SigBit × Finset PortKey) (wire : Wire) : List SigBit × Finset PortKey :=
  if wire.portInput ∧ wire.portOutput then acc
  else if !processWire context module wire then
    if wire.portOutput then (acc.1, acc.2 ∪ portKeys module.name wire.name wire.width)
    else acc
  else (acc.1 ++ (List.range wire.width).map fun i => sigmap (wire.bit i), acc.2)

/-- Lines 224-252: `buf_bits` and the buffered ports, over the wires. -/
def collectBufBits (wires : List Wire) (bufPorts : Finset PortKey) : List SigBit × Finset PortKey :=
  wires.foldl (collectBufBit context module sigmap) ([], bufPorts)

/-- Lines 256-266, for one cell: a `BUFR` or `BUFIO` whose `I` bit is in `buf_bits` is
added under the hash of that bit; `getPort` and `as_bit` fail as in the kernel. -/
def indexBufr (bufBits : List SigBit) (map : Nat → List Nat) (cell : Cell) :
    Option (Nat → List Nat) :=
  if cell.type ≠ .id "\\BUFR" ∧ cell.type ≠ .id "\\BUFIO" then some map
  else do
    let iBit ← (cell.getPort (.id "\\I")).bind asBit
    if iBit ∈ bufBits then
      some fun h => if h = context.hash iBit then map h ++ [cell.id] else map h
    else some map

/-- Lines 255-267: `bufr_cells_map`, from the hash of the `I` bit of each `BUFR` or `BUFIO`
cell whose `I` bit is in `buf_bits` to the cells, in order. -/
def bufrCellsMap (bufBits : List SigBit) (cells : List Cell) : Option (Nat → List Nat) :=
  cells.foldlM (indexBufr context bufBits) fun _ => []

/-- One stage of an inserted chain: a new cell of `type` (`addCell(NEW_ID, type)`) whose
port `sinkPort` is set to `sinkSide` and whose port `sourcePort` is set to a new one-bit
wire (`addWire(NEW_ID)`). -/
def addStage (type sinkPort sourcePort : IdString) (sinkSide : SigBit) (state : InsertState) :
    InsertState :=
  let id := state.autoidx
  let cell := newCell id type [(sinkPort, [sinkSide]), (sourcePort, [.wire (id + 1) 0])]
  { state with
    module := (state.module.addCell cell).addWire (id + 1) (.auto (id + 1))
    autoidx := id + 2 }

/-- Whether the chain on a bit of `wire` starts with a buffer (line 305). -/
def useBuffer (wire : Wire) : Bool :=
  let options := context.options
  let isInput := wire.portInput && !options.inpadCelltype.isEmpty && module.top
  !options.bufCelltype.isEmpty && (!isInput || context.bufferInputs)

/-- Whether the chain on a bit of `wire` has a pad (line 304). -/
def usePad (wire : Wire) : Bool :=
  wire.portInput && !context.options.inpadCelltype.isEmpty && module.top

/-- Lines 302-325: insert a buffer, a pad, or a pad feeding a buffer on the canonical bit
`bit` of `wire`, and record the first cell and the last new wire of the chain. -/
def insertChain (wire : Wire) (bit : SigBit) (state : InsertState) : InsertState :=
  let options := context.options
  let afterBuffer :=
    if useBuffer context module wire then
      addStage (escapeId options.bufCelltype) (escapeId options.bufPortname)
        (escapeId options.bufPortname2) bit state
    else state
  let afterPad :=
    if usePad context module wire then
      addStage (escapeId options.inpadCelltype) (escapeId options.inpadPortname)
        (escapeId options.inpadPortname2)
        (if useBuffer context module wire then .wire (state.autoidx + 1) 0 else bit) afterBuffer
    else afterBuffer
  if useBuffer context module wire || usePad context module wire then
    { afterPad with bufferedBits := fun b =>
        if b = bit then some (state.autoidx, afterPad.autoidx - 1) else afterPad.bufferedBits b }
  else afterPad

variable (tags : InvState) (driven : Finset SigBit)

/-- Lines 290-335, for bit `i` of `wire`; the flag records whether an input port bit was
buffered (`input_bits` is not empty). -/
def insertBit (wire : Wire) (acc : InsertState × Bool) (i : Nat) : InsertState × Bool :=
  let (state, inputBits) := acc
  let wireBit := wire.bit i
  let mapped := sigmap wireBit
  if mapped ∈ tags.buf then
    (if wire.portOutput then { state with bufPorts := insert (module.name, wire.name, i) state.bufPorts }
     else state, inputBits)
  else if mapped ∉ tags.sink then (state, inputBits)
  else if wireBit ∈ driven ∨ (wire.portInput ∧ module.top) then
    (insertChain context module wire mapped state, inputBits || wire.portInput)
  else if wire.portInput then
    ({ state with sinkPorts := insert (module.name, wire.name, i) state.sinkPorts }, inputBits)
  else (state, inputBits)

/-- Lines 337-354: a new wire copying the input port `wire`; each of its bits drives the
source side of the buffer inserted on that bit, or else the old bit. -/
def rewireInput (wire : Wire) (state : InsertState) : InsertState :=
  let id := state.autoidx
  let rewired := (List.range wire.width).foldl (fun module i =>
    match state.bufferedBits (sigmap (wire.bit i)) with
    | some (_, iwire) => module.connect (.wire iwire 0) (.wire id i)
    | none => module.connect (wire.bit i) (.wire id i))
    (state.module.addWireLike id (.auto id) wire)
  { state with
    module := rewired
    autoidx := id + 1
    inputQueue := state.inputQueue ++ [(wire.id, id)] }

/-- Lines 269-355, for one wire. -/
def insertWire (state : InsertState) (wire : Wire) : InsertState :=
  if wire.portInput ∧ wire.portOutput then state
  else if !processWire context module wire then
    if wire.portOutput then
      { state with bufPorts := state.bufPorts ∪ portKeys module.name wire.name wire.width }
    else state
  else
    let (state, inputBits) :=
      (List.range wire.width).foldl (insertBit context module sigmap tags driven wire) (state, false)
    if inputBits then rewireInput sigmap wire state else state

/-- The keys of the bits of `wire` whose canonical bit got a buffer. -/
def bufferedKeys (bufferedBits : SigBit → Option (Nat × Nat)) (wire : Wire) : Finset PortKey :=
  (((List.range wire.width).filter fun i => (bufferedBits (sigmap (wire.bit i))).isSome).map
    fun i => (module.name, wire.name, i)).toFinset

/-- Lines 357-368: an output port bit whose canonical bit got a buffer is published as
buffered, for the modules that instantiate this one. -/
def publishOutputs (state : InsertState) : InsertState :=
  let published := state.module.wires.foldl (fun bufPorts wire =>
    if !context.selected module.name wire.name || wire.portInput || !wire.portOutput then bufPorts
    else bufPorts ∪ bufferedKeys module sigmap state.bufferedBits wire) state.bufPorts
  { state with bufPorts := published }

end Insertion

end SynthesisRepo.Clkbufmap
