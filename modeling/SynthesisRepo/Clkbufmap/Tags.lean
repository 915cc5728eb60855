import SynthesisRepo.Rtlil.SigMap
import Mathlib.Data.Finset.Basic

/-! # Tag tables

The run-wide tables of `ClkbufmapPass::execute` (lines 116-120), filled from blackbox
port attributes (lines 140-158) and read, cell port bit by cell port bit, to collect a
module's clock sinks, already buffered bits and driven bits (lines 167-179, 212-217).
-/

namespace SynthesisRepo.Clkbufmap

open Rtlil

/-- A cell port bit of a cell type: `pair<IdString, pair<IdString, int>>`, the type,
the port name and the bit index. -/
abbrev PortKey := IdString × IdString × Nat

/-- `sink_ports`, `buf_ports`, `inv_ports_out` and `inv_ports_in`. -/
structure TagTables where
  sinkPorts : Finset PortKey
  bufPorts : Finset PortKey
  invPortsOut : PortKey → Option (IdString × Nat)
  invPortsIn : PortKey → Option (IdString × Nat)

/-- The tables as `execute` declares them. -/
def TagTables.empty : TagTables := ⟨∅, ∅, fun _ => none, fun _ => none⟩

/-- The keys of bits `0 .. width - 1` of port `name` of type `type`. -/
def portKeys (type name : IdString) (width : Nat) : Finset PortKey :=
  ((List.range width).map fun index => (type, name, index)).toFinset

@[simp] theorem mem_portKeys {type name : IdString} {width : Nat} {key : PortKey} :
    key ∈ portKeys type name width ↔ key.1 = type ∧ key.2.1 = name ∧ key.2.2 < width := by
  obtain ⟨t, n, i⟩ := key
  simp only [portKeys, List.mem_toFinset, List.mem_map, List.mem_range, Prod.mk.injEq]
  constructor
  · rintro ⟨index, lt, rfl, rfl, rfl⟩; exact ⟨rfl, rfl, lt⟩
  · rintro ⟨rfl, rfl, lt⟩; exact ⟨i, lt, rfl, rfl, rfl⟩

/-- Lines 143-156, for one port wire of a blackbox module: a `clkbuf_driver` port is
already buffered, a `clkbuf_sink` port is a sink, and a `clkbuf_inv` port is the output
paired bit by bit with the input port its value names.  The loops over bit indices write
each key once, so they are written here as one update per map. -/
def blackboxPortTags (module : Module) (wire : Wire) (tables : TagTables) : TagTables :=
  let keys := portKeys module.name wire.name wire.width
  let bufPorts := if wire.attributes.clkbufDriver then tables.bufPorts ∪ keys else tables.bufPorts
  let sinkPorts := if wire.attributes.clkbufSink then tables.sinkPorts ∪ keys else tables.sinkPorts
  match wire.attributes.clkbufInv with
  | none => { tables with bufPorts, sinkPorts }
  | some value =>
    let inName := escapeId value
    { sinkPorts, bufPorts
      invPortsOut := fun key =>
        if key.1 = module.name ∧ key.2.1 = wire.name ∧ key.2.2 < wire.width then
          some (inName, key.2.2)
        else tables.invPortsOut key
      invPortsIn := fun key =>
        if key.1 = module.name ∧ key.2.1 = inName ∧ key.2.2 < wire.width then
          some (wire.name, key.2.2)
        else tables.invPortsIn key }

/-- Lines 140-158: the tags of a blackbox module, port by port.  `module->wire(port)` is
dereferenced unchecked, so a port without a wire stops the pass. -/
def blackboxTags (module : Module) (tables : TagTables) : Option TagTables :=
  module.ports.foldlM (fun tables port =>
    (module.wire port).map fun wire => blackboxPortTags module wire tables) tables

/-- One iteration of the triple loop `for cell, for port, for i` over cell port bits. -/
structure Slot where
  cell : Cell
  port : IdString
  index : Nat
  bit : SigBit
  deriving DecidableEq, Repr

/-- The tag-table key of a slot. -/
def Slot.key (slot : Slot) : PortKey := (slot.cell.type, slot.port, slot.index)

/-- The cell port bits of a module, in the order of the triple loop. -/
def slots (module : Module) : List Slot :=
  module.cells.flatMap fun cell => cell.connections.flatMap fun entry =>
    entry.2.enum.map fun bit => ⟨cell, entry.1, bit.1, bit.2⟩

theorem mem_slots {module : Module} {slot : Slot} :
    slot ∈ slots module ↔ slot.cell ∈ module.cells ∧
      ∃ signal, (slot.port, signal) ∈ slot.cell.connections ∧ signal.get? slot.index = some slot.bit := by
  obtain ⟨cell, port, index, bit⟩ := slot
  simp only [slots, List.mem_flatMap, List.mem_map, Slot.mk.injEq, List.mem_enum_iff_getElem?]
  constructor
  · rintro ⟨cell, cellMem, entry, entryMem, ⟨i, b⟩, found, rfl, rfl, rfl, rfl⟩
    exact ⟨cellMem, entry.2, entryMem, by simpa using found⟩
  · rintro ⟨cellMem, signal, entryMem, found⟩
    exact ⟨cell, cellMem, (port, signal), entryMem, (index, bit), by simpa using found,
      rfl, rfl, rfl, rfl⟩

/-- The bit `getPort(port)[index]` of a cell of the module is a slot of the module. -/
theorem mem_slots_of_getBit {module : Module} {cell : Cell} (cellMem : cell ∈ module.cells)
    {port : IdString} {index : Nat} {bit : SigBit} (found : cell.getBit port index = some bit) :
    ⟨cell, port, index, bit⟩ ∈ slots module := by
  unfold Cell.getBit at found
  cases lookup : cell.getPort port with
  | none => simp [lookup] at found
  | some signal =>
    rw [lookup, Option.some_bind] at found
    obtain ⟨before, after, split, -⟩ := List.lookup_eq_some_iff.mp lookup
    exact mem_slots.mpr ⟨cellMem, signal, split ▸ List.mem_append_right _ (List.mem_cons_self _ _),
      found⟩

/-- In a cell naming each port once, `getPort(port)[index]` of a slot is its bit. -/
theorem getBit_of_mem_slots {module : Module} {slot : Slot}
    (distinct : (slot.cell.connections.map Prod.fst).Nodup) (mem : slot ∈ slots module) :
    slot.cell.getBit slot.port slot.index = some slot.bit := by
  obtain ⟨-, signal, entryMem, found⟩ := mem_slots.mp mem
  simpa [Cell.getBit, Cell.getPort, lookup_of_mem_of_nodup distinct entryMem] using found

/-- Lines 167-172 (and 174-179 with `buf_ports`): the canonical bits of the cell port
bits whose key is in `keys`. -/
def collectBits (sigmap : SigBit → SigBit) (keys : Finset PortKey) (module : Module) :
    Finset SigBit :=
  (((slots module).filter (·.key ∈ keys)).map fun slot => sigmap slot.bit).toFinset

/-- Lines 212-217: the bits connected, as they are and not canonically, to an output
port of a cell. -/
def drivenWireBits (output : IdString → IdString → Bool) (module : Module) : Finset SigBit :=
  (((slots module).filter fun slot => output slot.cell.type slot.port).map (·.bit)).toFinset

theorem mem_collectBits {sigmap : SigBit → SigBit} {keys : Finset PortKey} {module : Module}
    {bit : SigBit} :
    bit ∈ collectBits sigmap keys module ↔
      ∃ slot ∈ slots module, slot.key ∈ keys ∧ sigmap slot.bit = bit := by
  simp [collectBits, and_assoc]

theorem mem_drivenWireBits {output : IdString → IdString → Bool} {module : Module}
    {bit : SigBit} :
    bit ∈ drivenWireBits output module ↔
      ∃ slot ∈ slots module, output slot.cell.type slot.port ∧ slot.bit = bit := by
  simp [drivenWireBits, and_assoc]

end SynthesisRepo.Clkbufmap
