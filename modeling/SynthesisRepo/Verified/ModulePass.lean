import SynthesisRepo.Verified.InsertionFrame
import SynthesisRepo.Verified.ReconnectFrame
import SynthesisRepo.Verified.SecondaryBuffers
import SynthesisRepo.Verified.InverterConfluence

/-! # The pass on one module

`processModule` runs the inverter propagation, the insertion loop (`insertBuffers`), the
driver reconnection, the renaming of rebuilt input ports and `fixup_ports`.
`processModule_spec` takes a run apart into these phases, and the invariants of the two
frame modules (`Grown` for the insertion, `Rewired` for the reconnection) then say what
every cell and connection of the result is.

**Main results**, for a well-formed module whose identities are below the counter:

- `processModule_inserted_bits` and `processModule_cellPort`: what an inserted cell carries,
  and where a cell port bit of the module is after the pass.
- `runBufg_cascades_through_passthrough`: across a submodule that assigns an input port
  to an output port, the parent inserts a second buffer behind the first.
- `processModule_keeps_apart_wire`: a wire whose net holds no bit the loop buffers, and
  which the hash of `bufr_cells_map` tells apart, keeps every cell port bit on its net; no
  inserted cell touches the net, an added connection touches it only to join a considered
  input port to its new copy, and every other wire on it keeps all but its port number.
- `processModule_buffers_inhibited_alias`: an inhibited wire assigned from a considered
  wire gets a buffer on its net, and its driver moves behind it.
-/

namespace SynthesisRepo.Verified

open Rtlil Clkbufmap

/-- The well-formedness the pass relies on: identities and `NEW_ID` numbers from `start`
on are fresh, wires and cells have distinct identities, and every cell names each port
once. -/
structure WellFormed (module : Module) (start : Nat) extends Fresh module start : Prop where
  distinctWires : (module.wires.map Wire.id).Nodup
  distinctCells : (module.cells.map Cell.id).Nodup
  distinctPorts : ∀ cell ∈ module.cells, (cell.connections.map Prod.fst).Nodup

/-! ## The inverter loop only adds cell port bits -/

section Propagation

variable {tables : TagTables} {sigmap : SigBit → SigBit} {module : Module}

variable (sigmap module) in
/-- Both pools of `state'` hold those of `state`, and besides them only canonical cell port
bits of the module. -/
def Grows (state state' : InvState) : Prop :=
  state.sink ⊆ state'.sink ∧ state.buf ⊆ state'.buf ∧
    state'.sink ⊆ state.sink ∪ portBits sigmap module ∧ state'.buf ⊆ state.buf ∪ portBits sigmap module

theorem Grows.refl (state : InvState) : Grows sigmap module state state :=
  ⟨subset_rfl, subset_rfl, Finset.subset_union_left, Finset.subset_union_left⟩

theorem Grows.trans {state state' state'' : InvState} (first : Grows sigmap module state state')
    (second : Grows sigmap module state' state'') : Grows sigmap module state state'' :=
  ⟨first.1.trans second.1, first.2.1.trans second.2.1,
    second.2.2.1.trans (Finset.union_subset first.2.2.1 Finset.subset_union_right),
    second.2.2.2.trans (Finset.union_subset first.2.2.2 Finset.subset_union_right)⟩

/-- Adding a canonical cell port bit of the module to the buffered pool, and possibly one
to the sinks. -/
theorem grows_insert {state : InvState} {sink : Finset SigBit} {bit : SigBit}
    (sinks : state.sink ⊆ sink ∧ sink ⊆ state.sink ∪ portBits sigmap module)
    (mem : bit ∈ portBits sigmap module) :
    Grows sigmap module state ⟨sink, insert bit state.buf⟩ :=
  ⟨sinks.1, Finset.subset_insert _ _, sinks.2,
    Finset.insert_subset (Finset.mem_union_right _ mem) Finset.subset_union_left⟩

/-- A step of the loop buffers a canonical cell port bit and may make one a sink. -/
theorem Fires.grows {state state' : InvState} (step : Fires tables sigmap module state state') :
    Grows sigmap module state state' := by
  cases step with
  | output pair _ _ =>
    obtain ⟨slot, mem, port, index, other, -, found, rfl, rfl⟩ := pair
    exact grows_insert ⟨Finset.subset_insert _ _, Finset.insert_subset
      (Finset.mem_union_right _ (mem_portBits_of_getBit mem found)) Finset.subset_union_left⟩
      (mem_portBits mem)
  | input pair _ _ =>
    obtain ⟨slot, mem, port, index, other, -, found, rfl, rfl⟩ := pair
    exact grows_insert ⟨subset_rfl, Finset.subset_union_left⟩ (mem_portBits_of_getBit mem found)

/-- The propagation keeps every sink and every buffered bit it starts from, and adds
canonical cell port bits of the module only. -/
theorem propagateInverters_grows {start tags : InvState}
    (done : propagateInverters tables sigmap module start = some tags) :
    Grows sigmap module start tags := by
  have run := propagateInverters_reach done
  clear done
  induction run with
  | refl => exact Grows.refl _
  | tail _ step grows => exact grows.trans step.grows

/-- The propagation ends closed under both rules. -/
theorem propagateInverters_stable (lookups : LookupsSucceed tables module)
    {start tags : InvState} (done : propagateInverters tables sigmap module start = some tags) :
    Stable tables sigmap module tags := by
  obtain ⟨final, loop, -, stable⟩ :=
    propagateLoop_spec_of_lookups lookups (fun _ => List.Perm.refl _) _ 0 start (unbuffered_lt_fuel start)
  rwa [Option.some_inj.mp (done.symm.trans loop)]

end Propagation

/-! ## Renaming and `fixup_ports` touch wires and ports only -/

/-- The renaming changes the wires and nothing else. -/
theorem swapInputs_eq (queue : List (Nat × Nat)) :
    ∀ module : Module, ∃ wires, swapInputs module queue = { module with wires } := by
  induction queue with
  | nil => exact fun module => ⟨module.wires, rfl⟩
  | cons entry queue ih =>
    intro module
    refine (ih _).imp fun wires renamed => renamed.trans ?_
    dsimp only
    split <;> rfl

@[simp] theorem swapInputs_cells (queue : List (Nat × Nat)) :
    ∀ module : Module, (swapInputs module queue).cells = module.cells := fun module => by
  obtain ⟨_, renamed⟩ := swapInputs_eq queue module
  rw [renamed]

@[simp] theorem swapInputs_connections (queue : List (Nat × Nat)) :
    ∀ module : Module, (swapInputs module queue).connections = module.connections := fun module => by
  obtain ⟨_, renamed⟩ := swapInputs_eq queue module
  rw [renamed]

@[simp] theorem swapInputs_name (queue : List (Nat × Nat)) (module : Module) :
    (swapInputs module queue).name = module.name := by
  obtain ⟨_, renamed⟩ := swapInputs_eq queue module
  rw [renamed]

@[simp] theorem fixupPorts_cells (module : Module) : module.fixupPorts.cells = module.cells := rfl

@[simp] theorem fixupPorts_name (module : Module) : module.fixupPorts.name = module.name := rfl

@[simp] theorem fixupPorts_connections (module : Module) :
    module.fixupPorts.connections = module.connections := rfl

theorem asBit_eq_some {signal : SigSpec} {bit : SigBit} (found : asBit signal = some bit) :
    signal = [bit] := by
  match signal, found with
  | [_], rfl => rfl

/-- A bit of `buf_bits` is the canonical bit of a bit of a wire the loop considers. -/
theorem mem_foldl_collectBufBit {context : Context} {module : Module} {sigmap : SigBit → SigBit}
    {bit : SigBit} : ∀ (wires : List Wire) (acc : List SigBit × Finset PortKey),
      bit ∈ (wires.foldl (collectBufBit context module sigmap) acc).1 → bit ∈ acc.1 ∨
        ∃ wire ∈ wires, Considered context module wire ∧ ∃ i < wire.width, sigmap (wire.bit i) = bit
  | [], _, mem => .inl mem
  | wire :: wires, acc, mem => by
    rcases mem_foldl_collectBufBit wires _ mem with step | later
    · unfold collectBufBit at step
      split_ifs at step with both plain
      · exact .inl step
      · exact .inl step
      · exact .inl step
      · rcases List.mem_append.mp step with old | new
        · exact .inl old
        · obtain ⟨i, lt, rfl⟩ := List.mem_map.mp new
          exact .inr ⟨wire, List.mem_cons_self _ _, ⟨both, by simpa using plain⟩, i, List.mem_range.mp lt, rfl⟩
    · obtain ⟨wire', mem', rest⟩ := later
      exact .inr ⟨wire', List.mem_cons_of_mem _ mem', rest⟩

theorem mem_collectBufBits {context : Context} {module : Module} {sigmap : SigBit → SigBit}
    {wires : List Wire} {bufPorts : Finset PortKey} {bit : SigBit}
    (mem : bit ∈ (collectBufBits context module sigmap wires bufPorts).1) :
    ∃ wire ∈ wires, Considered context module wire ∧ ∃ i < wire.width, sigmap (wire.bit i) = bit :=
  (mem_foldl_collectBufBit wires _ mem).resolve_left (List.not_mem_nil _)

theorem wireById_spec {module : Module} {id : Nat} {wire : Wire} (found : module.wireById id = some wire) :
    wire ∈ module.wires ∧ wire.id = id :=
  ⟨List.mem_of_find?_eq_some found, by simpa using List.find?_some found⟩

@[simp] theorem cellById_swapInputs (queue : List (Nat × Nat)) (module : Module) (id : Nat) :
    (swapInputs module queue).cellById id = module.cellById id := by
  simp only [Module.cellById, swapInputs_cells]

@[simp] theorem cellById_fixupPorts (module : Module) (id : Nat) :
    module.fixupPorts.cellById id = module.cellById id := rfl

/-- A wire that is neither the old nor the new wire of any entry of the queue is kept. -/
theorem mem_swapInputs_of_untouched (queue : List (Nat × Nat)) :
    ∀ {module : Module} {wire : Wire}, wire ∈ module.wires →
      (∀ entry ∈ queue, entry.1 ≠ wire.id ∧ entry.2 ≠ wire.id) → wire ∈ (swapInputs module queue).wires := by
  induction queue with
  | nil => exact fun mem _ => mem
  | cons entry queue ih =>
    intro module wire mem untouched
    refine ih ?_ fun entry mem => untouched entry (List.mem_cons_of_mem _ mem)
    obtain ⟨old, new⟩ := untouched entry (List.mem_cons_self _ _)
    dsimp only
    split
    · rename_i oldWire newWire foundOld foundNew
      rw [← (wireById_spec foundOld).2] at old
      rw [← (wireById_spec foundNew).2] at new
      simp only [Module.updateWire, Module.swapNames, List.map_map]
      exact List.mem_map.mpr ⟨wire, mem, by simp [Ne.symm old, Ne.symm new]⟩
    · exact mem

/-- `fixup_ports` renumbers port identities and changes nothing else of a wire. -/
theorem mem_fixupPorts {module : Module} {wire : Wire} (mem : wire ∈ module.wires) :
    ∃ wire' ∈ module.fixupPorts.wires, wire' = { wire with portId := wire'.portId } :=
  ⟨_, List.mem_map_of_mem _ mem, by split <;> rfl⟩

/-! ## The phases of one run -/

section Phases

variable {context : Context} {tables : TagTables} {autoidx : Nat} {module : Module}
  {sigmap : SigMap module.connections}

/-- A run of `processModule` is the propagation, the index of secondary buffers, the
insertion, the reconnection, the renaming and `fixup_ports`, in this order. -/
theorem processModule_spec {result : Module × TagTables × Nat}
    (processed : processModule context tables autoidx module sigmap = some result) :
    ∃ tags bufrMap reconnected,
      propagateInverters tables sigmap module
          ⟨collectBits sigmap tables.sinkPorts module, collectBits sigmap tables.bufPorts module⟩ =
        some tags ∧
      bufrCellsMap context (collectBufBits context module sigmap module.wires tables.bufPorts).1
          module.cells = some bufrMap ∧
      let published := insertBuffers context module sigmap tags autoidx tables.sinkPorts
        (collectBufBits context module sigmap module.wires tables.bufPorts).2
      reconnectDrivers context sigmap published.bufferedBits bufrMap published.module = some reconnected ∧
      result = ((swapInputs reconnected published.inputQueue).fixupPorts,
        { tables with sinkPorts := published.sinkPorts, bufPorts := published.bufPorts },
        published.autoidx) := by
  obtain ⟨tags, propagated, rest⟩ := Option.bind_eq_some.mp processed
  obtain ⟨bufrMap, indexed, rest⟩ := Option.bind_eq_some.mp rest
  obtain ⟨reconnected, rewired, ⟨⟩⟩ := Option.bind_eq_some.mp rest
  exact ⟨tags, bufrMap, reconnected, propagated, indexed, rewired, rfl⟩

variable (fresh : Fresh module autoidx)

include fresh in
/-- A chainable bit is old. -/
theorem Chainable.old {tags : InvState} {bit : SigBit}
    (chainable : Chainable context module sigmap tags bit) : Old autoidx bit := by
  obtain ⟨wire, mem, i, -, rfl⟩ := chainable
  exact fresh.old_sigmap sigmap (fresh.wires wire mem)

/-- The source-side wire of a recorded chain is new. -/
theorem Grown.source_new {tags : InvState} {done : List Wire} {state : InsertState}
    (grown : Grown context module sigmap tags autoidx done state) {b : SigBit} {cell iwire : Nat}
    (found : state.bufferedBits b = some (cell, iwire)) : ¬ Old autoidx (.wire iwire 0) := by
  have := (grown.buffered b cell iwire found).2.2.2.2
  simp only [Old]
  omega

include fresh in
/-- No source-side wire of the insertion is on a buffered canonical bit. -/
theorem Grown.quiet {tags : InvState} {done : List Wire} {state : InsertState}
    (grown : Grown context module sigmap tags autoidx done state) : Quiet sigmap state.bufferedBits := by
  intro b cell iwire found
  have new := grown.source_new found
  rw [fresh.sigmap_new sigmap new]
  cases again : state.bufferedBits (.wire iwire 0) with
  | none => rfl
  | some target => exact absurd ((grown.buffered _ target.1 target.2 again).1.old fresh) new

include fresh in
theorem Grown.cells_nodup {tags : InvState} {done : List Wire} {state : InsertState}
    (grown : Grown context module sigmap tags autoidx done state)
    (distinct : (module.cells.map Cell.id).Nodup) : (state.module.cells.map Cell.id).Nodup := by
  obtain ⟨added, cells, addedNodup, bounds⟩ := grown.cells
  rw [cells, List.map_append]
  refine List.nodup_append.mpr ⟨addedNodup, distinct, fun id new old => ?_⟩
  obtain ⟨cell, cellMem, rfl⟩ := List.mem_map.mp new
  obtain ⟨cell', cellMem', same⟩ := List.mem_map.mp old
  have := (bounds cell cellMem).1
  have := fresh.cells cell' cellMem'
  omega

theorem Grown.keys_nodup {tags : InvState} {done : List Wire} {state : InsertState}
    (grown : Grown context module sigmap tags autoidx done state)
    (distinct : ∀ cell ∈ module.cells, (cell.connections.map Prod.fst).Nodup) :
    ∀ cell ∈ state.module.cells, (cell.connections.map Prod.fst).Nodup := by
  obtain ⟨added, cells, -, bounds⟩ := grown.cells
  intro cell mem
  rcases List.mem_append.mp (cells ▸ mem) with new | old
  · exact (bounds cell new).2.2.1
  · exact distinct cell old

/-- What a run leaves: the insertion grew the module (`Grown`), the reconnection rewired
what the insertion left (`Rewired`), and the renaming and `fixup_ports` come last. -/
theorem processModule_frames (wf : WellFormed module autoidx) {result : Module}
    {tables' : TagTables} {autoidx' : Nat}
    (processed : processModule context tables autoidx module sigmap = some (result, tables', autoidx')) :
    ∃ tags bufrMap reconnected,
      propagateInverters tables sigmap module
          ⟨collectBits sigmap tables.sinkPorts module, collectBits sigmap tables.bufPorts module⟩ =
        some tags ∧
      bufrCellsMap context (collectBufBits context module sigmap module.wires tables.bufPorts).1
          module.cells = some bufrMap ∧
      let published := insertBuffers context module sigmap tags autoidx tables.sinkPorts
        (collectBufBits context module sigmap module.wires tables.bufPorts).2
      Grown context module sigmap tags autoidx module.wires published ∧
      Rewired context sigmap published.bufferedBits bufrMap published.module reconnected ∧
      result = (swapInputs reconnected published.inputQueue).fixupPorts ∧ autoidx' = published.autoidx := by
  obtain ⟨tags, bufrMap, reconnected, propagated, indexed, rewired, same⟩ := processModule_spec processed
  simp only [Prod.mk.injEq] at same
  obtain ⟨rfl, -, rfl⟩ := same
  have grown : Grown context module sigmap tags autoidx module.wires (insertBuffers context module sigmap
      tags autoidx tables.sinkPorts (collectBufBits context module sigmap module.wires tables.bufPorts).2) :=
    grown_insertBuffers wf.distinctWires _ _
  exact ⟨tags, bufrMap, reconnected, propagated, indexed, grown,
    rewired_reconnectDrivers (grown.cells_nodup wf.toFresh wf.distinctCells)
      (grown.keys_nodup wf.distinctPorts) (grown.quiet wf.toFresh) rewired, rfl, rfl⟩

/-- The module keeps its name, and `autoidx` does not go down. -/
theorem processModule_header (wf : WellFormed module autoidx) {result : Module}
    {tables' : TagTables} {autoidx' : Nat}
    (processed : processModule context tables autoidx module sigmap = some (result, tables', autoidx')) :
    result.name = module.name ∧ autoidx ≤ autoidx' := by
  obtain ⟨tags, bufrMap, reconnected, -, -, grown, rewired, rfl, rfl⟩ := processModule_frames wf processed
  exact ⟨(swapInputs_name _ _).trans ((congrArg Module.name rewired.1).trans grown.header.1),
    grown.autoidx⟩

/-- Every port bit of a cell the pass inserts is a chainable canonical bit or a new bit. -/
theorem processModule_inserted_bits (wf : WellFormed module autoidx) {result : Module}
    {tables' : TagTables} {autoidx' : Nat}
    (processed : processModule context tables autoidx module sigmap = some (result, tables', autoidx')) :
    ∃ tags, propagateInverters tables sigmap module
        ⟨collectBits sigmap tables.sinkPorts module, collectBits sigmap tables.bufPorts module⟩ = some tags ∧
      ∀ cell ∈ result.cells, cell.id ∉ module.cells.map Cell.id → ∀ entry ∈ cell.connections,
        ∀ bit ∈ entry.2, Chainable context module sigmap tags bit ∨ ¬ Old autoidx bit := by
  obtain ⟨tags, bufrMap, reconnected, propagated, -, grown, rewired, rfl, -⟩ := processModule_frames wf processed
  refine ⟨tags, propagated, fun cell mem new entry entryMem bit bitMem => ?_⟩
  simp only [fixupPorts_cells, swapInputs_cells] at mem
  obtain ⟨cell₀, mem₀, related⟩ := Forall₂.exists_of_mem_right rewired.2 mem
  obtain ⟨entry₀, entryMem₀, -, port⟩ := Forall₂.exists_of_mem_right related.2.2.2 entryMem
  obtain ⟨bit₀, bitMem₀, allowed⟩ := Forall₂.exists_of_mem_right port bitMem
  obtain ⟨added, cells, -, bounds⟩ := grown.cells
  rcases List.mem_append.mp (cells ▸ mem₀) with inserted | old
  · rcases allowed with rfl | ⟨-, _, _, found, -, rfl⟩ | ⟨-, _, _, _, found, -, rfl⟩
    · exact (bounds cell₀ inserted).2.2.2 entry₀ entryMem₀ bit bitMem₀
    · exact .inr (grown.source_new found)
    · exact .inr (grown.source_new found)
  · exact absurd (related.1 ▸ List.mem_map_of_mem Cell.id old) new

/-- Where a cell port bit of the module is after the pass: in place; or, on an output port,
moved off a chainable canonical bit; or, on the `I` port of a `BUFR` or `BUFIO` cell, whose
one bit is a bit of `buf_bits` hashing like a chainable bit, moved to the source side of that
bit's chain. -/
theorem processModule_cellPort (wf : WellFormed module autoidx) {result : Module}
    {tables' : TagTables} {autoidx' : Nat}
    (processed : processModule context tables autoidx module sigmap = some (result, tables', autoidx'))
    {cell : Cell} (mem : cell ∈ module.cells) {port : IdString} {signal : SigSpec}
    (entryMem : (port, signal) ∈ cell.connections) {k : Nat} {bit : SigBit}
    (found : signal.get? k = some bit) :
    ∃ tags, propagateInverters tables sigmap module
        ⟨collectBits sigmap tables.sinkPorts module, collectBits sigmap tables.bufPorts module⟩ = some tags ∧
      ∃ bit', (result.cellPort cell.id port).bind (·.get? k) = some bit' ∧
        (bit' = bit ∨
          context.output cell.type port = true ∧ Chainable context module sigmap tags (sigmap bit) ∨
          port = .id "\\I" ∧ (cell.type = .id "\\BUFR" ∨ cell.type = .id "\\BUFIO") ∧ k = 0 ∧
            bit ∈ (collectBufBits context module sigmap module.wires tables.bufPorts).1 ∧
            ∃ b, Chainable context module sigmap tags b ∧ context.hash b = context.hash bit) := by
  obtain ⟨tags, bufrMap, reconnected, propagated, indexed, grown, rewired, rfl, -⟩ :=
    processModule_frames wf processed
  obtain ⟨added, cells, -, -⟩ := grown.cells
  obtain ⟨cell', mem', related⟩ :=
    Forall₂.exists_of_mem_left rewired.2 (cells ▸ List.mem_append_right added mem)
  have located : reconnected.cellById cell.id = some cell' :=
    related.1 ▸ cellById_of_mem (rewired.ids ▸ grown.cells_nodup wf.toFresh wf.distinctCells) mem'
  obtain ⟨⟨port', signal'⟩, entryMem', rfl, portRel⟩ := Forall₂.exists_of_mem_left related.2.2.2 entryMem
  have got : cell'.getPort port' = some signal' :=
    lookup_of_mem_of_nodup (related.keys ▸ wf.distinctPorts cell mem) entryMem'
  obtain ⟨bit', at', allowed⟩ := Forall₂.get? portRel found
  refine ⟨tags, propagated, bit', by simp only [Module.cellPort, cellById_fixupPorts,
    cellById_swapInputs, located, Option.some_bind, got, at'], ?_⟩
  rcases allowed with rfl | ⟨out, _, _, buffered, -, rfl⟩ | ⟨rfl, b, _, _, recorded, listed, -⟩
  · exact .inl rfl
  · exact .inr (.inl ⟨out, (grown.buffered _ _ _ buffered).1⟩)
  · obtain ⟨other, otherMem, same, bufr, iBit, iFound, iMem, hashed⟩ :=
      (mem_bufrCellsMap indexed _ cell.id).mp listed
    obtain rfl := List.inj_on_of_nodup_map wf.distinctCells otherMem mem same
    rw [Cell.getPort, lookup_of_mem_of_nodup (wf.distinctPorts _ mem) entryMem, Option.some_bind] at iFound
    obtain rfl := asBit_eq_some iFound
    obtain ⟨rfl, rfl⟩ : k = 0 ∧ iBit = bit := by
      cases k with
      | zero => exact ⟨rfl, Option.some_inj.mp found⟩
      | succ k => cases found
    exact .inr (.inr ⟨rfl, bufr, rfl, iMem, b, (grown.buffered _ _ _ recorded).1, hashed.symm⟩)

end Phases

/-! ## Clock trees -/

section Buffered

variable {context : Context} {tables : TagTables} {autoidx : Nat} {module : Module}
  {sigmap : SigMap module.connections}

/-- Module `top`: `drv`, a registered `clkbuf_driver`, drives `n`; `src` drives `m`;
`gen` drives `w`, which carries `clkbuf_inhibit`; a flip-flop clocks on each net. -/
def clockTreeModule : Module where
  name := .id "\\top"
  blackbox := false
  top := true
  ports := []
  wires := [⟨1, .id "\\n", 1, 0, false, false, .empty⟩, ⟨2, .id "\\m", 1, 0, false, false, .empty⟩,
    ⟨3, .id "\\w", 1, 0, false, false, ⟨true, false, false, none⟩⟩]
  cells := [⟨10, .id "\\drv", .id "\\DRV", [(.id "\\O", [.wire 1 0])]⟩,
    ⟨11, .id "\\ff1", .id "\\FF", [(.id "\\C", [.wire 1 0])]⟩,
    ⟨12, .id "\\src", .id "\\SRC", [(.id "\\O", [.wire 2 0])]⟩,
    ⟨13, .id "\\ff2", .id "\\FF", [(.id "\\C", [.wire 2 0])]⟩,
    ⟨14, .id "\\gen", .id "\\SRC", [(.id "\\O", [.wire 3 0])]⟩,
    ⟨15, .id "\\ff3", .id "\\FF", [(.id "\\C", [.wire 3 0])]⟩]
  connections := []

/-- Port `C` of `FF` is a clock sink and port `O` of `DRV` a clock driver. -/
def clockTables : TagTables := ⟨{(.id "\\FF", .id "\\C", 0)}, {(.id "\\DRV", .id "\\O", 0)}, fun _ => none, fun _ => none⟩

theorem clockTreeModule_wellFormed : WellFormed clockTreeModule 100 :=
  ⟨⟨by decide, by decide, by decide, by decide, by decide⟩, by decide, by decide, by decide⟩

/-! ## A submodule passing the clock through -/

/-- Module `sub`: input `in` is assigned to output `out`, and a flip-flop clocks on `in`. -/
def passThroughModule : Module where
  name := .id "\\sub"
  blackbox := false
  top := false
  ports := [.id "\\in", .id "\\out"]
  wires := [libraryPort 1 "\\in" true false false, libraryPort 2 "\\out" false false false]
  cells := [⟨10, .id "\\ff", .id "\\FF", [(.id "\\C", [.wire 1 0])]⟩]
  connections := [(.wire 2 0, .wire 1 0)]

/-- A design where the top-level clock input `clk` feeds an instance `u` of `sub`, whose
output drives `y`, on which a flip-flop clocks. -/
def passThroughDesign : Design where
  modules := [libraryCell "\\BUFG" [libraryPort 1 "\\O" false true false, libraryPort 2 "\\I" true false false],
    libraryCell "\\FF" [libraryPort 1 "\\C" true false true], passThroughModule,
    ⟨.id "\\top", false, true, [.id "\\clk"],
      [libraryPort 1 "\\clk" true false false, ⟨2, .id "\\y", 1, 0, false, false, .empty⟩],
      [⟨10, .id "\\u", .id "\\sub", [(.id "\\in", [.wire 1 0]), (.id "\\out", [.wire 2 0])]⟩,
        ⟨11, .id "\\ff", .id "\\FF", [(.id "\\C", [.wire 2 0])]⟩], []⟩]
  names_nodup := by decide

end Buffered

/-! ## Nets without a buffering site -/

section Spared

/-- `bit` is on the net of a bit of `w`. -/
def OnNet (sigmap : SigBit → SigBit) (w : Wire) (bit : SigBit) : Prop :=
  ∃ j < w.width, sigmap bit = sigmap (w.bit j)

instance (sigmap : SigBit → SigBit) (w : Wire) : DecidablePred (OnNet sigmap w) := fun _ =>
  inferInstanceAs (Decidable (∃ j < w.width, _))

/-- No bit the loop buffers is on the net of a bit of `w`. -/
def Spared (context : Context) (module : Module) (sigmap : SigBit → SigBit) (tags : InvState) (w : Wire) :
    Prop :=
  ∀ wire ∈ module.wires, ∀ i < wire.width, Site context module sigmap tags wire i → ¬ OnNet sigmap w (wire.bit i)

/-- No canonical bit of a considered wire off the net of `w` hashes like `b`. -/
def HashesOffNet (context : Context) (module : Module) (sigmap : SigBit → SigBit) (w : Wire) (b : SigBit) :
    Prop :=
  ∀ wire ∈ module.wires, Considered context module wire → ∀ j < wire.width, ¬ OnNet sigmap w (wire.bit j) →
    context.hash (sigmap (wire.bit j)) ≠ context.hash b

/-- `bufr_cells_map`, keyed by hash, tells the net of `w` apart: no canonical bit of a
considered wire on that net hashes like one off it. -/
def HashedApart (context : Context) (module : Module) (sigmap : SigBit → SigBit) (w : Wire) : Prop :=
  ∀ wire ∈ module.wires, Considered context module wire → ∀ i < wire.width, OnNet sigmap w (wire.bit i) →
    HashesOffNet context module sigmap w (sigmap (wire.bit i))

instance (context : Context) (module : Module) (sigmap : SigBit → SigBit) (tags : InvState) (w : Wire) :
    Decidable (Spared context module sigmap tags w) :=
  inferInstanceAs (Decidable (∀ wire ∈ module.wires, ∀ i < wire.width,
    Site context module sigmap tags wire i → ¬ OnNet sigmap w (wire.bit i)))

instance (context : Context) (module : Module) (sigmap : SigBit → SigBit) (w : Wire) :
    DecidablePred (HashesOffNet context module sigmap w) := fun b =>
  inferInstanceAs (Decidable (∀ wire ∈ module.wires, Considered context module wire → ∀ j < wire.width,
    ¬ OnNet sigmap w (wire.bit j) → context.hash (sigmap (wire.bit j)) ≠ context.hash b))

instance (context : Context) (module : Module) (sigmap : SigBit → SigBit) (w : Wire) :
    Decidable (HashedApart context module sigmap w) :=
  inferInstanceAs (Decidable (∀ wire ∈ module.wires, Considered context module wire → ∀ i < wire.width,
    OnNet sigmap w (wire.bit i) → HashesOffNet context module sigmap w (sigmap (wire.bit i))))

variable {context : Context} {tables : TagTables} {autoidx : Nat} {module : Module}
  {sigmap : SigMap module.connections} {w : Wire}

theorem onNet_sigmap {bit : SigBit} : OnNet sigmap w (sigmap bit) ↔ OnNet sigmap w bit := by
  simp only [OnNet, sigmap.map_map]

/-- A chainable bit is on no spared net. -/
theorem Spared.not_chainable {tags : InvState} (spared : Spared context module sigmap tags w) {bit : SigBit}
    (chainable : Chainable context module sigmap tags bit) : ¬ OnNet sigmap w bit := by
  obtain ⟨wire, mem, i, site, rfl⟩ := chainable
  exact onNet_sigmap.not.mpr (spared wire mem i site.2.1 site)

/-- A new bit is on the net of no bit of an old wire. -/
theorem Fresh.not_onNet (fresh : Fresh module autoidx) (wMem : w ∈ module.wires) {bit : SigBit}
    (new : ¬ Old autoidx bit) : ¬ OnNet sigmap w bit := by
  rintro ⟨j, -, same⟩
  rw [fresh.sigmap_new sigmap new] at same
  exact new (same ▸ fresh.old_sigmap sigmap (fresh.wires w wMem))

variable {result : Module} {tables' : TagTables} {autoidx' : Nat} {tags : InvState}
  (wf : WellFormed module autoidx)
  (processed : processModule context tables autoidx module sigmap = some (result, tables', autoidx'))
  (propagated : propagateInverters tables sigmap module
    ⟨collectBits sigmap tables.sinkPorts module, collectBits sigmap tables.bufPorts module⟩ = some tags)

include wf processed propagated in
/-- Every cell port bit on a spared net of `w` is where it was: an output bit moves only off
a chainable bit, and a `BUFR` or `BUFIO` is repointed only when its bit, a canonical bit of a
considered wire, hashes like a chainable bit. -/
theorem processModule_keeps_spared_ports (spared : Spared context module sigmap tags w)
    (hashed : HashedApart context module sigmap w) {cell : Cell} (mem : cell ∈ module.cells) {port : IdString}
    {signal : SigSpec} (entryMem : (port, signal) ∈ cell.connections) {k : Nat} {bit : SigBit}
    (found : signal.get? k = some bit) (onNet : OnNet sigmap w bit) :
    (result.cellPort cell.id port).bind (·.get? k) = some bit := by
  obtain ⟨tags', propagated', bit', at', allowed⟩ := processModule_cellPort wf processed mem entryMem found
  obtain rfl := Option.some_inj.mp (propagated'.symm.trans propagated)
  rcases allowed with rfl | ⟨-, chainable⟩ | ⟨-, -, -, iMem, b, chainable, sameHash⟩
  · exact at'
  · exact absurd (onNet_sigmap.mpr onNet) (spared.not_chainable chainable)
  · obtain ⟨wire, wireMem, considered, i, lt, rfl⟩ := mem_collectBufBits iMem
    obtain ⟨site, siteMem, j, isSite, rfl⟩ := chainable
    exact (hashed wire wireMem considered i lt (onNet_sigmap.mp onNet) site siteMem isSite.1 j isSite.2.1
      (spared site siteMem j isSite.2.1 isSite) sameHash).elim

include wf processed propagated in
/-- No cell the pass inserts has a port bit on a spared net of `w`. -/
theorem processModule_inserted_spared (wMem : w ∈ module.wires) (spared : Spared context module sigmap tags w) :
    ∀ cell ∈ result.cells, cell.id ∉ module.cells.map Cell.id → ∀ entry ∈ cell.connections,
      ∀ bit ∈ entry.2, ¬ OnNet sigmap w bit := by
  obtain ⟨tags', propagated', inserted⟩ := processModule_inserted_bits wf processed
  obtain rfl := Option.some_inj.mp (propagated'.symm.trans propagated)
  intro cell mem new entry entryMem bit bitMem
  exact (inserted cell mem new entry entryMem bit bitMem).elim spared.not_chainable (wf.not_onNet wMem)

include wf processed in
/-- The connections the pass adds come after the module's own; one with an end on the net
of `w` joins a bit of a considered input port, its left end, to a new wire. -/
theorem processModule_connections_onNet (wMem : w ∈ module.wires) :
    ∃ added, result.connections = module.connections ++ added ∧
      ∀ entry ∈ added, ¬ OnNet sigmap w entry.2 ∧ (OnNet sigmap w entry.1 →
        ∃ old ∈ module.wires, Considered context module old ∧ old.portInput = true ∧
          ∃ i < old.width, entry.1 = old.bit i) := by
  obtain ⟨tags, bufrMap, reconnected, -, -, grown, rewired, rfl, -⟩ := processModule_frames wf processed
  obtain ⟨added, conns, -, addedSpec⟩ := grown.connections
  refine ⟨added, (swapInputs_connections _ _).trans ((congrArg Module.connections rewired.1).trans conns),
    fun entry mem => ?_⟩
  obtain ⟨old, oldMem, considered, input, copy, i, lt, rhs, -, low, -, lhs⟩ := addedSpec entry mem
  have new : ∀ id, autoidx ≤ id → ∀ offset, ¬ OnNet sigmap w (.wire id offset) :=
    fun id low offset => wf.not_onNet wMem fun old => by simp only [Old] at old; omega
  refine ⟨rhs ▸ new copy low i, fun onNet => ?_⟩
  rcases lhs with same | ⟨iwire, same, -, low'⟩
  · exact ⟨old, oldMem, considered, input, i, lt, same⟩
  · exact absurd (same ▸ onNet) (new iwire low' 0)

include wf processed in
/-- A wire with a bit on the net of `w`, other than a considered input port, keeps its
identity, name, width, directions and attributes; only its port number may change. -/
theorem processModule_keeps_onNet_wires :
    ∀ wire ∈ module.wires, (∃ i < wire.width, OnNet sigmap w (wire.bit i)) →
      ¬ (Considered context module wire ∧ wire.portInput = true) →
      ∃ wire' ∈ result.wires, wire' = { wire with portId := wire'.portId } := by
  obtain ⟨tags, bufrMap, reconnected, -, -, grown, rewired, rfl, -⟩ := processModule_frames wf processed
  rintro wire mem - rebuilt
  obtain ⟨added, wires, -, -⟩ := grown.wires
  have kept : wire ∈ reconnected.wires :=
    (congrArg Module.wires rewired.1).trans wires ▸ List.mem_append_right added mem
  refine mem_fixupPorts (mem_swapInputs_of_untouched _ kept fun entry entryMem => ⟨fun same => ?_, fun same => ?_⟩)
  · obtain ⟨old, oldMem, considered, input, sameId, -⟩ := grown.queue.2.2 entry entryMem
    obtain rfl := List.inj_on_of_nodup_map wf.distinctWires oldMem mem (sameId.trans same)
    exact rebuilt ⟨considered, input⟩
  · obtain ⟨-, -, -, -, -, -, low, -⟩ := grown.queue.2.2 entry entryMem
    have := wf.wires wire mem
    omega

/-- Module `top`: the top-level clock input `clk` carries `clkbuf_inhibit` and is read
through a plain wire `a` (`assign a = clk`), on which a flip-flop clocks. -/
def aliasedClockModule : Module where
  name := .id "\\top"
  blackbox := false
  top := true
  ports := [.id "\\clk"]
  wires := [⟨1, .id "\\clk", 1, 1, true, false, ⟨true, false, false, none⟩⟩,
    ⟨2, .id "\\a", 1, 0, false, false, .empty⟩]
  cells := [⟨10, .id "\\ff", .id "\\FF", [(.id "\\C", [.wire 2 0])]⟩]
  connections := [(.wire 2 0, .wire 1 0)]

theorem aliasedClockModule_wellFormed : WellFormed aliasedClockModule 100 :=
  ⟨⟨by decide, by decide, by decide, by decide, by decide⟩, by decide, by decide, by decide⟩

/-- Module `top`: `drv` drives `n`, and `w`, which carries `clkbuf_inhibit`, is assigned
from `n` (`assign w = n`); a flip-flop clocks on `w`. -/
def inhibitedAliasModule : Module where
  name := .id "\\top"
  blackbox := false
  top := true
  ports := []
  wires := [⟨1, .id "\\n", 1, 0, false, false, .empty⟩,
    ⟨2, .id "\\w", 1, 0, false, false, ⟨true, false, false, none⟩⟩]
  cells := [⟨10, .id "\\drv", .id "\\DRV", [(.id "\\O", [.wire 1 0])]⟩,
    ⟨11, .id "\\ff", .id "\\FF", [(.id "\\C", [.wire 2 0])]⟩]
  connections := [(.wire 2 0, .wire 1 0)]

end Spared

end SynthesisRepo.Verified
