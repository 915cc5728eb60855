import Mathlib.Logic.Relation
import Mathlib.Data.List.Nodup

/-! # RTLIL netlists

The part of the Yosys RTLIL data model that the `clkbufmap` pass reads and writes:
names, signal bits, wires, cells, modules and designs, with the kernel operations the
pass calls (`getPort`, `setPort`, `addWire`, `addCell`, `connect`, `swap_names`,
`fixup_ports`).

Objects have an identity (`Wire.id`, `Cell.id`) besides their name, as the kernel's
pointers do: a `SigBit` names a wire by identity, so `swap_names` moves a name without
moving any connection.  Fresh identities and `NEW_ID` names are both drawn from the
global `autoidx` counter.
-/

namespace SynthesisRepo.Rtlil

/-- `RTLIL::IdString`: a name given by a frontend or a user (`id`, already escaped), or a
name made by `NEW_ID`, numbered by the global `autoidx` counter (`auto`). -/
inductive IdString where
  | id (name : String)
  | auto (index : Nat)
  deriving DecidableEq, Repr

/-- With distinct keys, `lookup` finds the entry of a key. -/
theorem lookup_of_mem_of_nodup {α β : Type} [DecidableEq α] {entries : List (α × β)}
    (distinct : (entries.map Prod.fst).Nodup) {key : α} {value : β} (mem : (key, value) ∈ entries) :
    entries.lookup key = some value := by
  induction entries with
  | nil => cases mem
  | cons entry entries ih =>
    obtain ⟨key', value'⟩ := entry
    simp only [List.map_cons, List.nodup_cons] at distinct
    rcases List.mem_cons.mp mem with same | mem
    · rw [← same]; exact List.lookup_cons_self
    · have other : key ≠ key' := fun same => distinct.1 (same ▸ List.mem_map_of_mem _ mem)
      have differs : (key == key') = false := by simpa using other
      simp only [List.lookup_cons, differs]
      exact ih distinct.2 mem

/-- `RTLIL::escape_id`: prefix a backslash unless the name is empty, already escaped, or
internal (`$...`). -/
def escapeId (str : String) : IdString :=
  if str.length > 0 ∧ str.front ≠ '\\' ∧ str.front ≠ '$' then .id ("\\" ++ str) else .id str

/-- `RTLIL::State`: the value of a constant bit. -/
inductive State where
  | S0 | S1 | Sx | Sz | Sa | Sm
  deriving DecidableEq, Repr

/-- `RTLIL::SigBit`: a constant, or bit `offset` of the wire with identity `wire`. -/
inductive SigBit where
  | const (value : State)
  | wire (wire : Nat) (offset : Nat)
  deriving DecidableEq, Repr

/-- `RTLIL::SigSpec`, kept as its list of bits. -/
abbrev SigSpec := List SigBit

/-- The wire attributes the pass reads or writes: `clkbuf_inhibit`, `clkbuf_driver`,
`clkbuf_sink` (each read with `get_bool_attribute`) and the string of `clkbuf_inv`. -/
structure WireAttributes where
  clkbufInhibit : Bool
  clkbufDriver : Bool
  clkbufSink : Bool
  clkbufInv : Option String
  deriving DecidableEq, Repr

/-- No attribute set: what `attributes.clear()` leaves and what `addWire` starts from. -/
def WireAttributes.empty : WireAttributes := ⟨false, false, false, none⟩

/-- `RTLIL::Wire`, with the fields the pass reads or copies. -/
structure Wire where
  id : Nat
  name : IdString
  width : Nat
  portId : Nat
  portInput : Bool
  portOutput : Bool
  attributes : WireAttributes
  deriving DecidableEq, Repr

/-- `SigBit(wire, i)`. -/
def Wire.bit (wire : Wire) (offset : Nat) : SigBit := .wire wire.id offset

/-- Whether a wire is a port of its module. -/
def Wire.isPort (wire : Wire) : Bool := wire.portInput || wire.portOutput

/-- `RTLIL::Cell`: identity, name, type and the port-to-signal dictionary `connections_`,
listed in the dictionary's iteration order. -/
structure Cell where
  id : Nat
  name : IdString
  type : IdString
  connections : List (IdString × SigSpec)
  deriving DecidableEq, Repr

/-- `Cell::getPort`; the kernel's `dict::at` throws on a port that is not connected. -/
def Cell.getPort (cell : Cell) (port : IdString) : Option SigSpec :=
  cell.connections.lookup port

/-- `cell->getPort(port)[index]`, failing like `dict::at` and `std::vector::at`. -/
def Cell.getBit (cell : Cell) (port : IdString) (index : Nat) : Option SigBit :=
  (cell.getPort port).bind (·.get? index)

/-- `Cell::setPort`: overwrite a connected port in place, or add a new entry, which the
kernel's `dict` iterates first. -/
def Cell.setPort (cell : Cell) (port : IdString) (signal : SigSpec) : Cell :=
  { cell with connections :=
      if (cell.getPort port).isSome then
        cell.connections.map fun entry => if entry.1 = port then (port, signal) else entry
      else (port, signal) :: cell.connections }

namespace Cell

@[simp] theorem setPort_id (cell : Cell) (port : IdString) (signal : SigSpec) :
    (cell.setPort port signal).id = cell.id := rfl

@[simp] theorem setPort_type (cell : Cell) (port : IdString) (signal : SigSpec) :
    (cell.setPort port signal).type = cell.type := rfl

/-- An entry of a cell after `setPort` is the new one or was there before. -/
theorem mem_setPort {cell : Cell} {port : IdString} {signal : SigSpec} {entry : IdString × SigSpec}
    (mem : entry ∈ (cell.setPort port signal).connections) :
    entry = (port, signal) ∨ entry ∈ cell.connections := by
  unfold setPort at mem
  split at mem
  · obtain ⟨old, oldMem, rfl⟩ := List.mem_map.mp mem
    split
    · exact .inl rfl
    · exact .inr oldMem
  · exact List.mem_cons.mp mem

/-- `setPort` keeps the ports of a cell distinct. -/
theorem setPort_keys_nodup {cell : Cell} (distinct : (cell.connections.map Prod.fst).Nodup)
    (port : IdString) (signal : SigSpec) :
    ((cell.setPort port signal).connections.map Prod.fst).Nodup := by
  unfold setPort
  split
  · rw [List.map_map]
    convert distinct using 1
    exact List.map_congr_left fun entry _ => by by_cases hit : entry.1 = port <;> simp [hit]
  · rename_i absent
    simp only [Option.not_isSome_iff_eq_none, getPort, List.lookup_eq_none_iff, bne_iff_ne] at absent
    exact List.nodup_cons.mpr ⟨fun mem => by
      obtain ⟨entry, mem, same⟩ := List.mem_map.mp mem
      exact absent entry mem same.symm, distinct⟩

/-- Overwriting the entries of a connected port: `lookup` finds the new signal. -/
theorem lookup_replace_self {port : IdString} {signal : SigSpec} :
    ∀ {entries : List (IdString × SigSpec)}, (entries.lookup port).isSome →
      (entries.map fun entry => if entry.1 = port then (port, signal) else entry).lookup port = some signal
  | [], present => by simp at present
  | (key, value) :: entries, present => by
    by_cases hit : key = port
    · simp [hit]
    · have miss : (port == key) = false := beq_false_of_ne (Ne.symm hit)
      simp only [List.lookup_cons, miss] at present
      simpa [hit, List.lookup_cons, miss] using lookup_replace_self present

/-- Overwriting the entries of one port leaves what `lookup` finds for another. -/
theorem lookup_replace_ne {port port' : IdString} (apart : port ≠ port') (signal : SigSpec) :
    ∀ entries : List (IdString × SigSpec),
      (entries.map fun entry => if entry.1 = port then (port, signal) else entry).lookup port' =
        entries.lookup port'
  | [] => rfl
  | (key, value) :: entries => by
    have rest := lookup_replace_ne apart signal entries
    by_cases hit : key = port
    · subst hit
      simp [List.lookup_cons, beq_false_of_ne (Ne.symm apart), rest]
    · simp [hit, List.lookup_cons, rest]

theorem getPort_setPort_self (cell : Cell) (port : IdString) (signal : SigSpec) :
    (cell.setPort port signal).getPort port = some signal := by
  unfold setPort
  split
  · exact lookup_replace_self ‹_›
  · simp [getPort]

theorem getPort_setPort_ne (cell : Cell) {port port' : IdString} (apart : port ≠ port') (signal : SigSpec) :
    (cell.setPort port signal).getPort port' = cell.getPort port' := by
  unfold setPort
  split
  · exact lookup_replace_ne apart signal _
  · simp [getPort, List.lookup_cons, beq_false_of_ne (Ne.symm apart)]

end Cell

/-- `RTLIL::Module`: the flags the pass reads (`get_blackbox_attribute()`, the `top`
attribute), the port list, and the wire and cell dictionaries in iteration order.
Connections are kept bit by bit: `SigMap` reads a multi-bit connection bit by bit. -/
structure Module where
  name : IdString
  blackbox : Bool
  top : Bool
  ports : List IdString
  wires : List Wire
  cells : List Cell
  connections : List (SigBit × SigBit)
  deriving Repr

namespace Module

/-- `Module::wire(name)`. -/
def wire (module : Module) (name : IdString) : Option Wire :=
  module.wires.find? (·.name == name)

/-- The wire with identity `id`. -/
def wireById (module : Module) (id : Nat) : Option Wire :=
  module.wires.find? (·.id == id)

/-- The cell with identity `id`. -/
def cellById (module : Module) (id : Nat) : Option Cell :=
  module.cells.find? (·.id == id)

/-- The signal on port `port` of the cell with identity `id`. -/
def cellPort (module : Module) (id : Nat) (port : IdString) : Option SigSpec :=
  (module.cellById id).bind (·.getPort port)

/-- `Module::addWire`: a new one-bit wire, first in the wire dictionary's iteration. -/
def addWire (module : Module) (id : Nat) (name : IdString) : Module :=
  { module with wires := ⟨id, name, 1, 0, false, false, .empty⟩ :: module.wires }

/-- `Module::addWire(name, other)`: a new wire copying width, port id, port directions
and attributes of `other`. -/
def addWireLike (module : Module) (id : Nat) (name : IdString) (other : Wire) : Module :=
  { module with wires := { other with id, name } :: module.wires }

/-- `Module::addCell`, with the connections the pass gives the new cell. -/
def addCell (module : Module) (cell : Cell) : Module :=
  { module with cells := cell :: module.cells }

/-- `Module::connect(lhs, rhs)` for one bit. -/
def connect (module : Module) (lhs rhs : SigBit) : Module :=
  { module with connections := module.connections ++ [(lhs, rhs)] }

/-- Apply `f` to the cell with identity `id`. -/
def updateCell (module : Module) (id : Nat) (f : Cell → Cell) : Module :=
  { module with cells := module.cells.map fun cell => if cell.id = id then f cell else cell }

/-- Apply `f` to the wire with identity `id`. -/
def updateWire (module : Module) (id : Nat) (f : Wire → Wire) : Module :=
  { module with wires := module.wires.map fun wire => if wire.id = id then f wire else wire }

/-- `Module::swap_names(w1, w2)`: the two wires exchange their names.  Each wire keeps its
place in the list; Yosys re-inserts the two into the module's wire dictionary under their new
names, which can change the order that dictionary iterates in. -/
def swapNames (module : Module) (w1 w2 : Wire) : Module :=
  { module with wires := module.wires.map fun wire =>
      if wire.id = w1.id then { wire with name := w2.name }
      else if wire.id = w2.id then { wire with name := w1.name } else wire }

/-- Modelled from the spec: the order in which `fixup_ports` lists port wires, numbered
ones first, by port id. -/
def portBefore (a b : Wire) : Bool :=
  (a.portId != 0 && b.portId == 0) || ((a.portId != 0) == (b.portId != 0) && a.portId ≤ b.portId)

/-- Modelled from the spec: `Module::fixup_ports`, which "re-derives the module's
externally visible port ordering/set from the current input/output flags on its wires".
Port wires are ordered by `portBefore` and renumbered from one; every other wire gets
port id zero. -/
def fixupPorts (module : Module) : Module :=
  let sorted := (module.wires.filter Wire.isPort).mergeSort portBefore
  let number : Wire → Wire := fun wire =>
    if wire.isPort then
      { wire with portId := (sorted.findIdx? (·.id == wire.id)).elim 0 (· + 1) }
    else { wire with portId := 0 }
  { module with ports := sorted.map (·.name), wires := module.wires.map number }

end Module

/-- `RTLIL::Design`: its modules, whose names are distinct as the kernel's module
dictionary requires. -/
structure Design where
  modules : List Module
  names_nodup : (modules.map Module.name).Nodup

namespace Design

/-- `Design::module(name)`. -/
def module (design : Design) (name : IdString) : Option Module :=
  design.modules.find? (·.name == name)

/-- `Cell::output(port)`: internal cell types answer from the kernel's cell library
`celltypes`; other cells from the port flags of the design module of their type. -/
def output (celltypes : IdString → Option (IdString → Bool)) (design : Design)
    (type port : IdString) : Bool :=
  match celltypes type with
  | some direction => direction port
  | none =>
    match design.module type with
    | some module => match module.wire port with
      | some wire => wire.portOutput
      | none => false
    | none => false

/-- Replace the module named as `module` by `module`. -/
def update (design : Design) (module : Module) : Design where
  modules := design.modules.map fun old => if old.name = module.name then module else old
  names_nodup := by
    have names : (design.modules.map fun old => if old.name = module.name then module else old).map
        Module.name = design.modules.map Module.name := by
      rw [List.map_map]
      exact List.map_congr_left fun old _ => by by_cases h : old.name = module.name <;> simp [h]
    exact names ▸ design.names_nodup

end Design

end SynthesisRepo.Rtlil
