import SynthesisRepo.Clkbufmap.Reconnect

/-! # What the insertion loop adds

The second wire loop of `ClkbufmapPass::execute` (lines 269-355) only adds: cells and wires
with new identities in front of the module's dictionaries, connections after the module's
own, and entries of `buffered_bits` and `input_queue`.  `Grown` collects what is known of
what was added after some of the module's wires were visited; every step of the loop keeps
it (`Grown.insertChain`, `Grown.insertBit`, `Grown.rewireInput`, `Grown.insertWire`), and so
does the whole loop with the publication of output ports (`grown_insertBuffers`).

Identities at or above `start`, the counter when the module's turn comes, are new: the bits
of such wires are the bits that are not `Old`.
-/

namespace SynthesisRepo.Verified

open Rtlil Clkbufmap

/-- A constant, or a bit of a wire whose identity is below `start`. -/
def Old (start : Nat) : SigBit → Prop
  | .wire id _ => id < start
  | .const _ => True

instance (start : Nat) : DecidablePred (Old start)
  | .wire id _ => inferInstanceAs (Decidable (id < start))
  | .const _ => inferInstanceAs (Decidable True)

/-- A name given by a user, or a `NEW_ID` name numbered below `start`. -/
def NamedBelow (start : Nat) : IdString → Prop
  | .auto index => index < start
  | .id _ => True

instance (start : Nat) : DecidablePred (NamedBelow start)
  | .auto index => inferInstanceAs (Decidable (index < start))
  | .id _ => inferInstanceAs (Decidable True)

/-- Identities and `NEW_ID` numbers from `start` on are unused in `module`: its wires and
cells have smaller identities, its cell ports and connections use old bits only, and its
`NEW_ID` names are numbered below `start`. -/
structure Fresh (module : Module) (start : Nat) : Prop where
  wires : ∀ wire ∈ module.wires, wire.id < start
  cells : ∀ cell ∈ module.cells, cell.id < start
  ports : ∀ slot ∈ slots module, Old start slot.bit
  connections : ∀ entry ∈ module.connections, Old start entry.1 ∧ Old start entry.2
  names : ∀ wire ∈ module.wires, NamedBelow start wire.name

section Canonical

variable {module : Module} {start : Nat} (fresh : Fresh module start)
  (sigmap : SigMap module.connections)

include fresh in
/-- A new bit is on no connection of the module. -/
theorem Fresh.alone {bit : SigBit} (new : ¬ Old start bit) :
    ∀ entry ∈ module.connections, entry.1 ≠ bit ∧ entry.2 ≠ bit :=
  fun entry mem => ⟨fun same => new (same ▸ (fresh.connections entry mem).1),
    fun same => new (same ▸ (fresh.connections entry mem).2)⟩

include fresh in
/-- A new bit is its own representative. -/
theorem Fresh.sigmap_new {bit : SigBit} (new : ¬ Old start bit) : sigmap bit = bit :=
  sigmap.map_of_not_mentioned (fresh.alone new)

include fresh in
/-- The representative of an old bit is old. -/
theorem Fresh.old_sigmap {bit : SigBit} (old : Old start bit) : Old start (sigmap bit) := by
  by_contra new
  exact new (Connected.eq_of_not_mentioned (fresh.alone new) (sigmap.connected bit).symm ▸ old)

end Canonical

section Insertion

variable (context : Context) (module : Module) (sigmap : SigBit → SigBit) (tags : InvState)
  (start : Nat)

/-- A wire the second loop considers (lines 270-284). -/
def Considered (wire : Wire) : Prop :=
  ¬ (wire.portInput = true ∧ wire.portOutput = true) ∧ processWire context module wire = true

instance : DecidablePred (Considered context module) := fun _ => inferInstanceAs (Decidable (_ ∧ _))

/-- Bit `i` of `wire` is one the loop buffers (lines 288-301): a bit of a considered wire
whose canonical bit is a sink and not buffered yet, driven by a cell or a top-level input,
with a buffer or a pad to insert. -/
def Site (wire : Wire) (i : Nat) : Prop :=
  Considered context module wire ∧ i < wire.width ∧ sigmap (wire.bit i) ∉ tags.buf ∧
    sigmap (wire.bit i) ∈ tags.sink ∧
    (wire.bit i ∈ drivenWireBits context.output module ∨ (wire.portInput = true ∧ module.top = true)) ∧
    (useBuffer context module wire = true ∨ usePad context module wire = true)

instance (wire : Wire) (i : Nat) : Decidable (Site context module sigmap tags wire i) :=
  inferInstanceAs (Decidable (_ ∧ _))

/-- A canonical bit the loop puts a chain on: that of a site. -/
def Chainable (bit : SigBit) : Prop :=
  ∃ wire ∈ module.wires, ∃ i, Site context module sigmap tags wire i ∧ sigmap (wire.bit i) = bit

/-- The one-bit wire `addWire(NEW_ID)` makes with identity `id`. -/
def chainWire (id : Nat) : Wire := ⟨id, .auto id, 1, 0, false, false, .empty⟩

/-- The new wire of a rebuilt input port: a copy of a considered input wire of the module,
under a new identity and a `NEW_ID` name. -/
def InputCopy (wire : Wire) : Prop :=
  ∃ old ∈ module.wires, Considered context module old ∧ old.portInput = true ∧
    wire = { old with id := wire.id, name := .auto wire.id }

/-- What the loop has added after visiting the wires `done`. -/
structure Grown (done : List Wire) (state : InsertState) : Prop where
  autoidx : start ≤ state.autoidx
  header : state.module.name = module.name ∧ state.module.blackbox = module.blackbox ∧
    state.module.top = module.top ∧ state.module.ports = module.ports
  /-- New wires come first: chain wires and copies of input ports listed in the queue. -/
  wires : ∃ added, state.module.wires = added ++ module.wires ∧ (added.map Wire.id).Nodup ∧
    ∀ wire ∈ added, start ≤ wire.id ∧ wire.id < state.autoidx ∧
      (wire = chainWire wire.id ∨
        (∃ entry ∈ state.inputQueue, entry.2 = wire.id) ∧ InputCopy context module wire)
  /-- New cells come first; their bits are new or canonical bits a chain may be put on. -/
  cells : ∃ added, state.module.cells = added ++ module.cells ∧ (added.map Cell.id).Nodup ∧
    ∀ cell ∈ added, start ≤ cell.id ∧ cell.id < state.autoidx ∧ (cell.connections.map Prod.fst).Nodup ∧
      ∀ entry ∈ cell.connections, ∀ bit ∈ entry.2,
        Chainable context module sigmap tags bit ∨ ¬ Old start bit
  /-- New connections come last: each drives a bit of a copy of an input port, from the old
  bit or from a chain wire. -/
  connections : ∃ added, state.module.connections = module.connections ++ added ∧
    (added.map Prod.snd).Nodup ∧
    ∀ entry ∈ added, ∃ old ∈ module.wires, Considered context module old ∧ old.portInput = true ∧
      ∃ copy i, i < old.width ∧ entry.2 = .wire copy i ∧
        { old with id := copy, name := .auto copy } ∈ state.module.wires ∧
        start ≤ copy ∧ copy < state.autoidx ∧
        (entry.1 = old.bit i ∨
          ∃ iwire, entry.1 = .wire iwire 0 ∧ chainWire iwire ∈ state.module.wires ∧ start ≤ iwire)
  /-- `buffered_bits` records chains on chainable bits, ending in chain wires. -/
  buffered : ∀ bit cell iwire, state.bufferedBits bit = some (cell, iwire) →
    Chainable context module sigmap tags bit ∧ start ≤ cell ∧ cell < state.autoidx ∧
      chainWire iwire ∈ state.module.wires ∧ start ≤ iwire
  /-- `input_queue` lists each visited input port once, with its own new copy. -/
  queue : (state.inputQueue.map Prod.fst).Nodup ∧ (state.inputQueue.map Prod.snd).Nodup ∧
    ∀ entry ∈ state.inputQueue, ∃ old ∈ done, Considered context module old ∧
      old.portInput = true ∧ old.id = entry.1 ∧
      { old with id := entry.2, name := .auto entry.2 } ∈ state.module.wires ∧
      start ≤ entry.2 ∧ entry.2 < state.autoidx

/-- The bit lines 343-350 connect bit `i` of the copy of `wire` from: the source-side wire
of the buffer on its canonical bit, or else the old bit. -/
def inputSource (bufferedBits : SigBit → Option (Nat × Nat)) (wire : Wire) (i : Nat) : SigBit :=
  match bufferedBits (sigmap (wire.bit i)) with
  | some (_, iwire) => .wire iwire 0
  | none => wire.bit i

end Insertion

/-! ## New cells and stages -/

/-- A new cell keeps its identity and type, and every entry it has is one of `ports`. -/
theorem foldl_setPort_spec (ports : List (IdString × SigSpec)) :
    ∀ cell : Cell, let built := ports.foldl (fun cell port => cell.setPort port.1 port.2) cell
      built.id = cell.id ∧ built.type = cell.type ∧
        ∀ entry ∈ built.connections, entry ∈ cell.connections ∨ entry ∈ ports := by
  induction ports with
  | nil => intro cell; simp
  | cons port ports ih =>
    intro cell
    obtain ⟨id, type, entries⟩ := ih (cell.setPort port.1 port.2)
    refine ⟨id, type, fun entry mem => ?_⟩
    rcases entries entry mem with old | new
    · rcases Cell.mem_setPort old with rfl | old
      · exact .inr (List.mem_cons_self _ _)
      · exact .inl old
    · exact .inr (List.mem_cons_of_mem _ new)

theorem foldl_setPort_nodup (ports : List (IdString × SigSpec)) :
    ∀ cell : Cell, (cell.connections.map Prod.fst).Nodup →
      ((ports.foldl (fun cell port => cell.setPort port.1 port.2) cell).connections.map Prod.fst).Nodup := by
  induction ports with
  | nil => exact fun _ distinct => distinct
  | cons port ports ih => exact fun cell distinct => ih _ (Cell.setPort_keys_nodup distinct port.1 port.2)

theorem newCell_id (id : Nat) (type : IdString) (ports : List (IdString × SigSpec)) :
    (newCell id type ports).id = id :=
  (foldl_setPort_spec ports _).1

theorem mem_newCell {id : Nat} {type : IdString} {ports : List (IdString × SigSpec)}
    {entry : IdString × SigSpec} (mem : entry ∈ (newCell id type ports).connections) :
    entry ∈ ports := by
  simpa using (foldl_setPort_spec ports ⟨id, .auto id, type, []⟩).2.2 entry mem

@[simp] theorem addStage_autoidx (type sinkPort sourcePort : IdString) (sinkSide : SigBit)
    (state : InsertState) : (addStage type sinkPort sourcePort sinkSide state).autoidx = state.autoidx + 2 :=
  rfl

section Steps

variable {context : Context} {module : Module} {sigmap : SigBit → SigBit} {tags : InvState}
  {start : Nat}

/-- A chainable bit is a sink not yet buffered. -/
theorem Chainable.sink {bit : SigBit} (chainable : Chainable context module sigmap tags bit) :
    bit ∈ tags.sink ∧ bit ∉ tags.buf := by
  obtain ⟨wire, -, i, site, rfl⟩ := chainable
  exact ⟨site.2.2.2.1, site.2.2.1⟩

theorem Grown.addStage {done : List Wire} {state : InsertState}
    (grown : Grown context module sigmap tags start done state) {type sinkPort sourcePort : IdString}
    {sinkSide : SigBit} (side : Chainable context module sigmap tags sinkSide ∨ ¬ Old start sinkSide) :
    Grown context module sigmap tags start done (addStage type sinkPort sourcePort sinkSide state) := by
  obtain ⟨bound, header, ⟨wires, wiresEq, wiresNodup, wiresNew⟩,
    ⟨cells, cellsEq, cellsNodup, cellsNew⟩, ⟨conns, connsEq, connsNodup, connsNew⟩,
    buffered, queueNodup, copiesNodup, queue⟩ := grown
  have grows : ∀ wire ∈ state.module.wires, wire ∈ (Clkbufmap.addStage type sinkPort sourcePort
      sinkSide state).module.wires := fun _ mem => List.mem_cons_of_mem _ mem
  refine ⟨by simp; omega, header, ⟨chainWire (state.autoidx + 1) :: wires, by simp [Clkbufmap.addStage,
      Module.addWire, Module.addCell, wiresEq, chainWire], ?_, ?_⟩,
    ⟨newCell state.autoidx type [(sinkPort, [sinkSide]), (sourcePort, [.wire (state.autoidx + 1) 0])] ::
      cells, by simp [Clkbufmap.addStage, Module.addWire, Module.addCell, cellsEq], ?_, ?_⟩,
    ⟨conns, connsEq, connsNodup, fun entry mem => ?_⟩, fun bit cell iwire found => ?_,
    queueNodup, copiesNodup, fun entry mem => ?_⟩
  · refine List.nodup_cons.mpr ⟨fun mem => ?_, wiresNodup⟩
    obtain ⟨wire, wireMem, same⟩ := List.mem_map.mp mem
    have := (wiresNew wire wireMem).2.1
    simp [chainWire] at same
    omega
  · intro wire mem
    rcases List.mem_cons.mp mem with rfl | mem
    · exact ⟨by simp [chainWire]; omega, by simp [chainWire], .inl rfl⟩
    · obtain ⟨low, high, kind⟩ := wiresNew wire mem
      exact ⟨low, by simp; omega, kind⟩
  · refine List.nodup_cons.mpr ⟨fun mem => ?_, cellsNodup⟩
    obtain ⟨cell, cellMem, same⟩ := List.mem_map.mp mem
    have := (cellsNew cell cellMem).2.1
    rw [newCell_id] at same
    omega
  · intro cell mem
    rcases List.mem_cons.mp mem with rfl | mem
    · refine ⟨by rw [newCell_id]; exact bound, by rw [newCell_id]; simp,
        foldl_setPort_nodup _ _ List.nodup_nil, fun entry entryMem bit bitMem => ?_⟩
      rcases List.mem_cons.mp (mem_newCell entryMem) with rfl | entryMem
      · obtain rfl := List.mem_singleton.mp bitMem
        exact side
      · obtain rfl := List.mem_singleton.mp entryMem
        obtain rfl := List.mem_singleton.mp bitMem
        exact .inr (by simp [Old]; omega)
    · obtain ⟨low, high, distinct, bits⟩ := cellsNew cell mem
      exact ⟨low, by simp; omega, distinct, bits⟩
  · obtain ⟨old, oldMem, considered, input, copy, i, lt, rhs, copyMem, low, high, lhs⟩ :=
      connsNew entry mem
    refine ⟨old, oldMem, considered, input, copy, i, lt, rhs, grows _ copyMem, low, by simp; omega, ?_⟩
    rcases lhs with same | ⟨iwire, same, iwireMem, iwireLow⟩
    · exact .inl same
    · exact .inr ⟨iwire, same, grows _ iwireMem, iwireLow⟩
  · obtain ⟨chainable, low, high, iwireMem, iwireLow⟩ := buffered bit cell iwire found
    exact ⟨chainable, low, by simp; omega, grows _ iwireMem, iwireLow⟩
  · obtain ⟨old, oldMem, considered, input, same, copyMem, low, high⟩ := queue entry mem
    exact ⟨old, oldMem, considered, input, same, grows _ copyMem, low, by simp; omega⟩

/-- Recording a chain on a chainable bit, from an existing cell identity to a chain wire. -/
theorem Grown.record {done : List Wire} {state : InsertState}
    (grown : Grown context module sigmap tags start done state) {bit : SigBit} {cell iwire : Nat}
    (chainable : Chainable context module sigmap tags bit) (low : start ≤ cell)
    (high : cell < state.autoidx) (iwireMem : chainWire iwire ∈ state.module.wires)
    (iwireLow : start ≤ iwire) :
    Grown context module sigmap tags start done
      { state with bufferedBits := fun b => if b = bit then some (cell, iwire) else state.bufferedBits b } :=
  ⟨grown.autoidx, grown.header, grown.wires, grown.cells, grown.connections,
    fun b cell' iwire' found => by
      dsimp only at found
      split at found
      · obtain ⟨rfl, rfl⟩ := Prod.mk.inj (Option.some_inj.mp found)
        rename_i same
        subst same
        exact ⟨chainable, low, high, iwireMem, iwireLow⟩
      · exact grown.buffered b cell' iwire' found,
    grown.queue⟩

/-- A chain keeps `Grown` when its bit is chainable whenever a buffer or a pad is inserted. -/
theorem Grown.insertChain {done : List Wire} {state : InsertState}
    (grown : Grown context module sigmap tags start done state) (wire : Wire) {bit : SigBit}
    (chainable : (useBuffer context module wire = true ∨ usePad context module wire = true) →
      Chainable context module sigmap tags bit) :
    Grown context module sigmap tags start done (insertChain context module wire bit state) := by
  have stage : ∀ (state : InsertState) (type sinkPort sourcePort : IdString) (sinkSide : SigBit),
      Grown context module sigmap tags start done state →
      (Chainable context module sigmap tags sinkSide ∨ ¬ Old start sinkSide) →
      Grown context module sigmap tags start done
          (Clkbufmap.addStage type sinkPort sourcePort sinkSide state) ∧
        chainWire (state.autoidx + 1) ∈
          (Clkbufmap.addStage type sinkPort sourcePort sinkSide state).module.wires :=
    fun _ _ _ _ _ grown side => ⟨grown.addStage side, List.mem_cons_self _ _⟩
  have low := grown.autoidx
  cases buffer : useBuffer context module wire <;> cases pad : usePad context module wire <;>
    simp [Clkbufmap.insertChain, buffer, pad]
  · exact grown
  · have chainable := chainable (.inr pad)
    obtain ⟨grown', mem⟩ := stage _ _ _ _ _ grown (.inl chainable)
    exact grown'.record chainable low (by simp) mem (by omega)
  · have chainable := chainable (.inl buffer)
    obtain ⟨grown', mem⟩ := stage _ _ _ _ _ grown (.inl chainable)
    exact grown'.record chainable low (by simp) mem (by omega)
  · have chainable := chainable (.inl buffer)
    obtain ⟨grown₁, -⟩ := stage state (escapeId context.options.bufCelltype)
      (escapeId context.options.bufPortname) (escapeId context.options.bufPortname2) bit grown
      (.inl chainable)
    obtain ⟨grown₂, mem⟩ := stage _ (escapeId context.options.inpadCelltype)
      (escapeId context.options.inpadPortname) (escapeId context.options.inpadPortname2)
      (.wire (state.autoidx + 1) 0) grown₁ (.inr fun old => by simp only [Old] at old; omega)
    exact grown₂.record chainable low (by simp; omega) mem (by omega)

/-- `Grown` reads the module, the counter, `buffered_bits` and `input_queue` only. -/
theorem Grown.of_eq {done : List Wire} {state state' : InsertState}
    (grown : Grown context module sigmap tags start done state) (sameModule : state'.module = state.module)
    (sameAutoidx : state'.autoidx = state.autoidx)
    (sameBuffered : state'.bufferedBits = state.bufferedBits)
    (sameQueue : state'.inputQueue = state.inputQueue) :
    Grown context module sigmap tags start done state' := by
  obtain ⟨bound, header, wires, cells, connections, buffered, queue⟩ := grown
  exact ⟨sameAutoidx ▸ bound, sameModule ▸ header, sameModule ▸ sameAutoidx ▸ sameQueue ▸ wires,
    sameModule ▸ sameAutoidx ▸ cells, sameModule ▸ sameAutoidx ▸ connections,
    sameBuffered ▸ sameModule ▸ sameAutoidx ▸ buffered, sameQueue ▸ sameModule ▸ sameAutoidx ▸ queue⟩

/-- A bit of a considered wire keeps `Grown`; the flag is set only on an input port. -/
theorem Grown.insertBit {done : List Wire} {state : InsertState}
    (grown : Grown context module sigmap tags start done state)
    {wire : Wire} (wireMem : wire ∈ module.wires) (considered : Considered context module wire)
    {i : Nat} (lt : i < wire.width) (flag : Bool) :
    let result := Clkbufmap.insertBit context module sigmap tags (drivenWireBits context.output module) wire
      (state, flag) i
    Grown context module sigmap tags start done result.1 ∧
      (result.2 = true → flag = true ∨ wire.portInput = true) := by
  have unchanged : ∀ state', state'.module = state.module → state'.autoidx = state.autoidx →
      state'.bufferedBits = state.bufferedBits → state'.inputQueue = state.inputQueue →
      Grown context module sigmap tags start done state' ∧ (flag = true → flag = true ∨ wire.portInput = true) :=
    fun _ sameModule sameAutoidx sameBuffered sameQueue =>
      ⟨grown.of_eq sameModule sameAutoidx sameBuffered sameQueue, .inl⟩
  simp only [Clkbufmap.insertBit]
  by_cases buf : sigmap (wire.bit i) ∈ tags.buf
  · simp only [if_pos buf]
    split <;> exact unchanged _ rfl rfl rfl rfl
  by_cases sink : sigmap (wire.bit i) ∈ tags.sink
  · simp only [if_neg buf, sink, not_true_eq_false, if_false]
    split
    · exact ⟨grown.insertChain wire fun chain => ⟨wire, wireMem, i, ⟨considered, lt, buf, sink, ‹_›, chain⟩, rfl⟩,
        fun set => by simpa using set⟩
    · split <;> exact unchanged _ rfl rfl rfl rfl
  · simp only [if_neg buf, sink, not_false_eq_true, if_true]
    exact unchanged _ rfl rfl rfl rfl

theorem Grown.foldl_insertBit {done : List Wire} {wire : Wire}
    (wireMem : wire ∈ module.wires) (considered : Considered context module wire)
    (indices : List Nat) (within : ∀ i ∈ indices, i < wire.width) :
    ∀ {state : InsertState} {flag : Bool}, Grown context module sigmap tags start done state →
      (flag = true → wire.portInput = true) →
      let result := indices.foldl
        (Clkbufmap.insertBit context module sigmap tags (drivenWireBits context.output module) wire)
        (state, flag)
      Grown context module sigmap tags start done result.1 ∧ (result.2 = true → wire.portInput = true) := by
  induction indices with
  | nil => intro state flag grown input; exact ⟨grown, input⟩
  | cons i indices ih =>
    intro state flag grown input
    obtain ⟨grown', set⟩ := grown.insertBit wireMem considered
      (within i (List.mem_cons_self _ _)) flag
    exact ih (fun j mem => within j (List.mem_cons_of_mem _ mem)) grown'
      fun flag' => (set flag').elim input id

/-- Connecting bit after bit appends the connections in order. -/
theorem foldl_connect {step : Module → Nat → Module} (lhs rhs : Nat → SigBit)
    (connects : ∀ module i, step module i = module.connect (lhs i) (rhs i)) (indices : List Nat) :
    ∀ base : Module, indices.foldl step base =
      { base with connections := base.connections ++ indices.map fun i => (lhs i, rhs i) } := by
  induction indices with
  | nil => intro base; simp
  | cons i indices ih =>
    intro base
    rw [List.foldl_cons, ih, connects]
    simp [Module.connect]

/-- Lines 337-354: the copy joins the wires, and each of its bits is connected from the
bit `inputSource` names. -/
theorem rewireInput_module (sigmap : SigBit → SigBit) (wire : Wire) (state : InsertState) :
    (Clkbufmap.rewireInput sigmap wire state).module =
      { state.module with
        wires := { wire with id := state.autoidx, name := .auto state.autoidx } :: state.module.wires
        connections := state.module.connections ++ (List.range wire.width).map fun i =>
          (inputSource sigmap state.bufferedBits wire i, .wire state.autoidx i) } := by
  rw [Clkbufmap.rewireInput, foldl_connect (inputSource sigmap state.bufferedBits wire)
    (fun i => .wire state.autoidx i) (fun module i => by
      unfold inputSource; rcases state.bufferedBits (sigmap (wire.bit i)) with _ | ⟨_, _⟩ <;> rfl)]
  rfl

/-- Rebuilding a considered input port not visited before keeps `Grown`. -/
theorem Grown.rewireInput {done : List Wire} {state : InsertState}
    (grown : Grown context module sigmap tags start done state) {wire : Wire}
    (wireMem : wire ∈ module.wires) (considered : Considered context module wire)
    (input : wire.portInput = true) (fresh : wire.id ∉ done.map Wire.id) :
    Grown context module sigmap tags start (done ++ [wire]) (Clkbufmap.rewireInput sigmap wire state) := by
  obtain ⟨bound, header, ⟨wires, wiresEq, wiresNodup, wiresNew⟩,
    ⟨cells, cellsEq, cellsNodup, cellsNew⟩, ⟨conns, connsEq, connsNodup, connsNew⟩,
    buffered, queueNodup, copiesNodup, queue⟩ := grown
  set newId := state.autoidx
  set copy : Wire := { wire with id := newId, name := .auto newId }
  have rewired := rewireInput_module sigmap wire state
  have grows : ∀ w ∈ state.module.wires, w ∈ (Clkbufmap.rewireInput sigmap wire state).module.wires :=
    fun _ mem => by rw [rewired]; exact List.mem_cons_of_mem _ mem
  have copyMem : copy ∈ (Clkbufmap.rewireInput sigmap wire state).module.wires := by
    rw [rewired]; exact List.mem_cons_self _ _
  have autoidx : (Clkbufmap.rewireInput sigmap wire state).autoidx = newId + 1 := rfl
  have inputQueue : (Clkbufmap.rewireInput sigmap wire state).inputQueue =
      state.inputQueue ++ [(wire.id, newId)] := rfl
  refine ⟨by omega, by rw [rewired]; exact header, ⟨copy :: wires, by rw [rewired, wiresEq]; rfl, ?_, ?_⟩,
    ⟨cells, by rw [rewired]; exact cellsEq, cellsNodup, fun cell mem => ?_⟩,
    ⟨conns ++ (List.range wire.width).map fun i => (inputSource sigmap state.bufferedBits wire i, .wire newId i),
      by rw [rewired, connsEq, List.append_assoc], ?_, ?_⟩,
    fun bit cell iwire found => ?_, ?_, ?_, ?_⟩
  · refine List.nodup_cons.mpr ⟨fun mem => ?_, wiresNodup⟩
    obtain ⟨w, wMem, same⟩ := List.mem_map.mp mem
    have := (wiresNew w wMem).2.1
    simp only [copy] at same
    omega
  · intro w mem
    rw [autoidx, inputQueue]
    rcases List.mem_cons.mp mem with rfl | mem
    · exact ⟨bound, by simp [copy], .inr ⟨⟨(wire.id, newId), by simp, rfl⟩,
        wire, wireMem, considered, input, rfl⟩⟩
    · obtain ⟨low, high, kind⟩ := wiresNew w mem
      refine ⟨low, by omega, kind.imp (fun same => same) fun ⟨⟨entry, entryMem, same⟩, copy⟩ =>
        ⟨⟨entry, List.mem_append_left _ entryMem, same⟩, copy⟩⟩
  · obtain ⟨low, high, bits⟩ := cellsNew cell mem
    exact ⟨low, by omega, bits⟩
  · rw [List.map_append, List.nodup_append]
    refine ⟨connsNodup, by simpa [List.nodup_range] using
      (List.nodup_range wire.width).map (fun a b same => by simpa using same), ?_⟩
    intro r oldMem newMem
    obtain ⟨entry, entryMem, rfl⟩ := List.mem_map.mp oldMem
    obtain ⟨-, -, -, -, copy', i, -, rhs, -, -, high, -⟩ := connsNew entry entryMem
    simp only [List.map_map, List.mem_map, List.mem_range, Function.comp] at newMem
    obtain ⟨j, -, same⟩ := newMem
    rw [rhs] at same
    cases same
    omega
  · intro entry mem
    rcases List.mem_append.mp mem with old | new
    · obtain ⟨old', oldMem, considered', input', copy', i, lt, rhs, copyMem', low, high, lhs'⟩ :=
        connsNew entry old
      refine ⟨old', oldMem, considered', input', copy', i, lt, rhs, grows _ copyMem', low,
        by omega, ?_⟩
      rcases lhs' with same | ⟨iwire, same, iwireMem, iwireLow⟩
      · exact .inl same
      · exact .inr ⟨iwire, same, grows _ iwireMem, iwireLow⟩
    · obtain ⟨i, lt, rfl⟩ := List.mem_map.mp new
      refine ⟨wire, wireMem, considered, input, newId, i, List.mem_range.mp lt, rfl, copyMem, bound,
        by omega, ?_⟩
      unfold inputSource
      split
      · rename_i cell iwire found
        obtain ⟨-, -, -, iwireMem, iwireLow⟩ := buffered _ _ _ found
        exact .inr ⟨iwire, rfl, grows _ iwireMem, iwireLow⟩
      · exact .inl rfl
  · obtain ⟨chainable, low, high, iwireMem, iwireLow⟩ := buffered bit cell iwire found
    exact ⟨chainable, low, by omega, grows _ iwireMem, iwireLow⟩
  · rw [inputQueue, List.map_append, List.nodup_append]
    refine ⟨queueNodup, List.nodup_singleton _, ?_⟩
    intro key oldMem newMem
    obtain ⟨entry, entryMem, rfl⟩ := List.mem_map.mp oldMem
    obtain ⟨old, oldDone, -, -, same, -⟩ := queue entry entryMem
    simp only [List.map_cons, List.map_nil, List.mem_singleton] at newMem
    exact fresh (newMem ▸ same ▸ List.mem_map_of_mem _ oldDone)
  · rw [inputQueue, List.map_append, List.nodup_append]
    refine ⟨copiesNodup, List.nodup_singleton _, ?_⟩
    intro key oldMem newMem
    obtain ⟨entry, entryMem, rfl⟩ := List.mem_map.mp oldMem
    obtain ⟨-, -, -, -, -, -, -, high⟩ := queue entry entryMem
    simp only [List.map_cons, List.map_nil, List.mem_singleton] at newMem
    omega
  · intro entry mem
    rw [inputQueue] at mem
    rcases List.mem_append.mp mem with old | new
    · obtain ⟨old', oldDone, considered', input', same, copyMem', low, high⟩ := queue entry old
      exact ⟨old', List.mem_append_left _ oldDone, considered', input', same, grows _ copyMem', low,
        by omega⟩
    · obtain rfl := List.mem_singleton.mp new
      exact ⟨wire, List.mem_append_right _ (List.mem_singleton_self _), considered, input, rfl,
        copyMem, bound, by omega⟩

/-- More visited wires keep `Grown`. -/
theorem Grown.extend {done : List Wire} {state : InsertState}
    (grown : Grown context module sigmap tags start done state) (more : List Wire) :
    Grown context module sigmap tags start (done ++ more) state :=
  ⟨grown.autoidx, grown.header, grown.wires, grown.cells, grown.connections, grown.buffered,
    grown.queue.1, grown.queue.2.1, fun entry mem => by
      obtain ⟨old, oldMem, rest⟩ := grown.queue.2.2 entry mem
      exact ⟨old, List.mem_append_left _ oldMem, rest⟩⟩

/-- Visiting a wire of the module not visited before keeps `Grown`. -/
theorem Grown.insertWire {done : List Wire} {state : InsertState}
    (grown : Grown context module sigmap tags start done state)
    {wire : Wire} (wireMem : wire ∈ module.wires) (fresh : wire.id ∉ done.map Wire.id) :
    Grown context module sigmap tags start (done ++ [wire])
      (Clkbufmap.insertWire context module sigmap tags (drivenWireBits context.output module) state wire) := by
  unfold Clkbufmap.insertWire
  split
  · exact grown.extend _
  split
  · split
    · exact (grown.extend [wire]).of_eq rfl rfl rfl rfl
    · exact grown.extend _
  rename_i inout processed
  have considered : Considered context module wire := ⟨inout, by simpa using processed⟩
  obtain ⟨grown', input⟩ := grown.foldl_insertBit wireMem considered (List.range wire.width)
    (fun i mem => List.mem_range.mp mem) (fun set => absurd set Bool.false_ne_true)
  revert grown' input
  generalize (List.range wire.width).foldl
    (Clkbufmap.insertBit context module sigmap tags (drivenWireBits context.output module) wire) (state, false) =
      result
  obtain ⟨state', inputBits⟩ := result
  intro grown' input
  cases inputBits
  · exact grown'.extend _
  · exact grown'.rewireInput wireMem considered (input rfl) fresh

theorem Grown.foldl_insertWire (rest : List Wire) :
    ∀ {done : List Wire} {state : InsertState}, (∀ wire ∈ rest, wire ∈ module.wires) →
      ((done ++ rest).map Wire.id).Nodup → Grown context module sigmap tags start done state →
      Grown context module sigmap tags start (done ++ rest)
        (rest.foldl (Clkbufmap.insertWire context module sigmap tags (drivenWireBits context.output module))
          state) := by
  induction rest with
  | nil => intro done state _ _ grown; simpa using grown
  | cons wire rest ih =>
    intro done state within distinct grown
    have fresh : wire.id ∉ done.map Wire.id := by
      rw [List.map_append, List.map_cons] at distinct
      exact fun mem => List.disjoint_of_nodup_append distinct mem (List.mem_cons_self _ _)
    simpa using ih (fun w mem => within w (List.mem_cons_of_mem _ mem)) (by simpa using distinct)
      (grown.insertWire (within wire (List.mem_cons_self _ _)) fresh)

/-- The state the loop starts from. -/
theorem grown_start (sinkPorts bufPorts : Finset PortKey) :
    Grown context module sigmap tags start [] ⟨module, start, sinkPorts, bufPorts, fun _ => none, []⟩ :=
  ⟨le_rfl, ⟨rfl, rfl, rfl, rfl⟩, ⟨[], rfl, List.nodup_nil, by simp⟩, ⟨[], rfl, List.nodup_nil, by simp⟩,
    ⟨[], by simp, List.nodup_nil, by simp⟩, (fun _ _ _ found => nomatch found),
    ⟨List.nodup_nil, List.nodup_nil, by simp⟩⟩

/-- After the loop and the publication of output ports (lines 269-368). -/
theorem grown_insertBuffers (distinct : (module.wires.map Wire.id).Nodup)
    (sinkPorts bufPorts : Finset PortKey) :
    Grown context module sigmap tags start module.wires
      (insertBuffers context module sigmap tags start sinkPorts bufPorts) :=
  (Grown.foldl_insertWire module.wires (fun _ mem => mem)
    (by simpa using distinct) (grown_start sinkPorts bufPorts)).of_eq rfl rfl rfl rfl

end Steps

end SynthesisRepo.Verified
