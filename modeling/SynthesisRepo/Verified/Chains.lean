import SynthesisRepo.Verified.Ports

/-! # One chain per clock net

Lines 288-354 put a chain (a buffer, a pad, or a pad feeding a buffer) on the canonical bit
of every bit they must buffer, and record it in `buffered_bits`.  Nothing in the loop stops
a second chain on the same canonical bit; what stops it is that a chain is put only on a
bit that a cell output or a top-level input drives, so that on a net with one driver the
loop meets the net's driver once.

`Owned` is what the loop keeps, indexed by the list of wire bits it has visited, in the
manner of a scan that marks what it has seen: every recorded canonical bit is that of a
visited driver, with its chain among the cells; every old bit an inserted cell carries is
recorded with that cell as its chain's first; and every visited bit the loop must buffer
is recorded.  A chain is put only on a bit not recorded yet (`Owned.insertChain`), so a
recorded chain is never replaced.

**Main results**: `owned_insertBuffers`, `insertBuffers_chain`, `insertBuffers_input`.
-/

namespace SynthesisRepo.Verified

open Rtlil Clkbufmap

/-! ## Drivers and chains -/

section Chains

variable (context : Context) (module : Module)

/-- The bits of `wire`, in the order the loop visits them. -/
def wireBits (wire : Wire) : List SigBit := (List.range wire.width).map wire.bit

/-- The bits of the input ports of the module, which the outside drives. -/
def inputBits : Finset SigBit :=
  (module.wires.flatMap fun wire => if wire.portInput then wireBits wire else []).toFinset

/-- The drivers of the module's nets: bits of cell output ports, and bits of input ports. -/
def driverBits : Finset SigBit :=
  drivenWireBits context.output module ∪ inputBits module

/-- Every net has at most one driver. -/
def SingleDriver (sigmap : SigBit → SigBit) : Prop :=
  ∀ x ∈ driverBits context module, ∀ y ∈ driverBits context module, sigmap x = sigmap y → x = y

instance (sigmap : SigBit → SigBit) : Decidable (SingleDriver context module sigmap) :=
  inferInstanceAs (Decidable (∀ x ∈ driverBits context module, ∀ y ∈ driverBits context module,
    sigmap x = sigmap y → x = y))

/-- A configured buffer has two distinct port names, and so has a configured pad. -/
def DistinctPortnames : Prop :=
  (!context.options.bufCelltype.isEmpty → escapeId context.options.bufPortname ≠ escapeId context.options.bufPortname2) ∧
    (!context.options.inpadCelltype.isEmpty →
      escapeId context.options.inpadPortname ≠ escapeId context.options.inpadPortname2)

instance : Decidable (DistinctPortnames context) :=
  inferInstanceAs (Decidable (_ ∧ _))

/-- The cell type and port of the sink side of the chain on a bit of `wire` (lines
305-318): the buffer's, or the pad's when there is no buffer. -/
def chainSink (wire : Wire) : IdString × IdString :=
  if useBuffer context module wire then
    (escapeId context.options.bufCelltype, escapeId context.options.bufPortname)
  else (escapeId context.options.inpadCelltype, escapeId context.options.inpadPortname)

/-- The cell type and port of the source side (lines 309-320): the pad's, or the buffer's
when there is no pad. -/
def chainSource (wire : Wire) : IdString × IdString :=
  if usePad context module wire then
    (escapeId context.options.inpadCelltype, escapeId context.options.inpadPortname2)
  else (escapeId context.options.bufCelltype, escapeId context.options.bufPortname2)

/-- The chain on the canonical bit `b` of a bit of `wire` among `cells`: a new first cell
`cell` whose sink-side port is on `b`, and a new last cell whose source-side port is on the
wire `iwire`. -/
def ChainAt (start : Nat) (cells : List Cell) (wire : Wire) (b : SigBit) (cell iwire : Nat) : Prop :=
  (∃ head ∈ cells, head.id = cell ∧ start ≤ cell ∧ head.type = (chainSink context module wire).1 ∧
    head.getPort (chainSink context module wire).2 = some [b]) ∧
  ∃ last ∈ cells, start ≤ last.id ∧ last.type = (chainSource context module wire).1 ∧
    last.getPort (chainSource context module wire).2 = some [.wire iwire 0]

variable (sigmap : SigBit → SigBit) (tags : InvState)

/-- What the loop keeps after visiting the wire bits `seen`. -/
structure Owned (start : Nat) (seen : List SigBit) (state : InsertState) : Prop where
  bound : start ≤ state.autoidx
  /-- The source side of a recorded chain is a new wire. -/
  sources : ∀ b cell iwire, state.bufferedBits b = some (cell, iwire) → start ≤ iwire
  /-- A recorded canonical bit is that of a visited driver, and its chain is there. -/
  recorded : ∀ b cell iwire, state.bufferedBits b = some (cell, iwire) →
    ∃ wire ∈ module.wires, ∃ i, wire.bit i ∈ seen ∧ wire.bit i ∈ driverBits context module ∧
      sigmap (wire.bit i) = b ∧ ChainAt context module start state.module.cells wire b cell iwire
  /-- An old bit on an inserted cell is recorded with that cell. -/
  carried : ∀ c ∈ state.module.cells, start ≤ c.id → ∀ entry ∈ c.connections, ∀ x ∈ entry.2,
    Old start x → ∃ iwire, state.bufferedBits x = some (c.id, iwire)
  /-- A visited bit the loop buffers is recorded. -/
  complete : ∀ wire ∈ module.wires, ∀ i, wire.bit i ∈ seen → Site context module sigmap tags wire i →
    ∃ cell iwire, state.bufferedBits (sigmap (wire.bit i)) = some (cell, iwire)
  /-- New connections come after the module's own; each drives a bit of a new wire, from a
  new bit or from a bit of an input port the loop does not buffer. -/
  wired : ∃ added, state.module.connections = module.connections ++ added ∧ ∀ entry ∈ added,
    ¬ Old start entry.2 ∧ (¬ Old start entry.1 ∨ ∃ old ∈ module.wires, old.portInput = true ∧
      ∃ i < old.width, entry.1 = old.bit i ∧ ¬ Site context module sigmap tags old i)

end Chains

theorem Wire.bit_inj {wire wire' : Wire} {i j : Nat} (same : wire.bit i = wire'.bit j) :
    wire.id = wire'.id ∧ i = j := by
  simpa [Wire.bit] using same

section Lemmas

variable {context : Context} {module : Module} {sigmap : SigBit → SigBit} {tags : InvState}
  {start : Nat}

/-- A bit of an input port is a driver. -/
theorem input_mem_driverBits {wire : Wire} (mem : wire ∈ module.wires) (input : wire.portInput = true)
    {i : Nat} (lt : i < wire.width) : wire.bit i ∈ driverBits context module := by
  refine Finset.mem_union_right _ (List.mem_toFinset.mpr (List.mem_flatMap.mpr ⟨wire, mem, ?_⟩))
  simp only [input, if_true, wireBits, List.mem_map, List.mem_range]
  exact ⟨i, lt, rfl⟩

/-- The driver of a bit the loop buffers is a driver. -/
theorem Site.driver {wire : Wire} (mem : wire ∈ module.wires) {i : Nat}
    (site : Site context module sigmap tags wire i) : wire.bit i ∈ driverBits context module := by
  obtain ⟨-, lt, -, -, driven, -⟩ := site
  rcases driven with driven | ⟨input, -⟩
  · exact Finset.mem_union_left _ driven
  · exact input_mem_driverBits mem input lt

theorem ChainAt.mono {cells cells' : List Cell} {wire : Wire} {b : SigBit} {cell iwire : Nat}
    (chain : ChainAt context module start cells wire b cell iwire) (sub : ∀ c ∈ cells, c ∈ cells') :
    ChainAt context module start cells' wire b cell iwire :=
  let ⟨⟨head, mem, rest⟩, ⟨last, mem', rest'⟩⟩ := chain
  ⟨⟨head, sub _ mem, rest⟩, ⟨last, sub _ mem', rest'⟩⟩

end Lemmas

/-! ## The cells of a chain -/

theorem newCell_type (id : Nat) (type : IdString) (ports : List (IdString × SigSpec)) :
    (newCell id type ports).type = type :=
  (foldl_setPort_spec ports _).2.1

/-- A new stage's source-side port is on its new wire. -/
theorem newCell_getPort_source (id : Nat) (type sinkPort sourcePort : IdString) (sinkSide sourceSide : SigBit) :
    (newCell id type [(sinkPort, [sinkSide]), (sourcePort, [sourceSide])]).getPort sourcePort =
      some [sourceSide] :=
  Cell.getPort_setPort_self _ _ _

/-- With two port names, a new stage's sink-side port is on its sink side. -/
theorem newCell_getPort_sink (id : Nat) (type : IdString) {sinkPort sourcePort : IdString}
    (distinct : sinkPort ≠ sourcePort) (sinkSide sourceSide : SigBit) :
    (newCell id type [(sinkPort, [sinkSide]), (sourcePort, [sourceSide])]).getPort sinkPort =
      some [sinkSide] :=
  (Cell.getPort_setPort_ne _ (Ne.symm distinct) _).trans (Cell.getPort_setPort_self _ _ _)

theorem addStage_cells (type sinkPort sourcePort : IdString) (sinkSide : SigBit) (state : InsertState) :
    (addStage type sinkPort sourcePort sinkSide state).module.cells =
      newCell state.autoidx type [(sinkPort, [sinkSide]), (sourcePort, [.wire (state.autoidx + 1) 0])] ::
        state.module.cells :=
  rfl

@[simp] theorem addStage_bufferedBits (type sinkPort sourcePort : IdString) (sinkSide : SigBit)
    (state : InsertState) : (addStage type sinkPort sourcePort sinkSide state).bufferedBits = state.bufferedBits :=
  rfl

@[simp] theorem addStage_connections (type sinkPort sourcePort : IdString) (sinkSide : SigBit)
    (state : InsertState) :
    (addStage type sinkPort sourcePort sinkSide state).module.connections = state.module.connections :=
  rfl

section Chain

variable (context : Context) (module : Module)

theorem insertChain_connections (wire : Wire) (bit : SigBit) (state : InsertState) :
    (insertChain context module wire bit state).module.connections = state.module.connections := by
  unfold insertChain
  cases useBuffer context module wire <;> cases usePad context module wire <;> rfl

/-- Without a buffer or a pad, lines 302-325 do nothing. -/
theorem insertChain_idle {wire : Wire} (idle : ¬ (useBuffer context module wire = true ∨
    usePad context module wire = true)) (bit : SigBit) (state : InsertState) :
    insertChain context module wire bit state = state := by
  simp only [not_or, Bool.not_eq_true] at idle
  simp [insertChain, idle.1, idle.2]

variable {context module}

/-- Lines 302-325 with a buffer or a pad: new cells come first, the chain on `bit` is among
them, its first cell is the only one on an old bit, and `bit` is recorded with the chain. -/
theorem insertChain_spec (names : DistinctPortnames context) {wire : Wire}
    (fires : useBuffer context module wire = true ∨ usePad context module wire = true)
    (bit : SigBit) (state : InsertState) :
    let state' := insertChain context module wire bit state
    ∃ added iwire, state'.module.cells = added ++ state.module.cells ∧
      state'.bufferedBits = (fun b => if b = bit then some (state.autoidx, iwire) else state.bufferedBits b) ∧
      state.autoidx < iwire ∧ iwire < state'.autoidx ∧
      ChainAt context module state.autoidx added wire bit state.autoidx iwire ∧
      ∀ c ∈ added, state.autoidx ≤ c.id ∧ ∀ entry ∈ c.connections, ∀ x ∈ entry.2,
        (x = bit ∧ c.id = state.autoidx) ∨ ∃ n, x = .wire n 0 ∧ state.autoidx < n := by
  have bufNames : useBuffer context module wire = true → _ := fun buffer =>
    names.1 ((Bool.and_eq_true _ _).mp buffer).1
  have padNames : usePad context module wire = true → _ := fun pad =>
    names.2 ((Bool.and_eq_true _ _).mp ((Bool.and_eq_true _ _).mp pad).1).2
  have stage : ∀ {id : Nat} {type sinkPort sourcePort : IdString} {sinkSide sourceSide : SigBit},
      ∀ entry ∈ (newCell id type [(sinkPort, [sinkSide]), (sourcePort, [sourceSide])]).connections,
        ∀ x ∈ entry.2, x = sinkSide ∨ x = sourceSide := fun entry mem x xMem => by
    rcases List.mem_pair.mp (mem_newCell mem) with rfl | rfl <;> simp_all
  have single : ∀ {type sinkPort sourcePort : IdString}, sinkPort ≠ sourcePort →
      (type, sinkPort) = chainSink context module wire → (type, sourcePort) = chainSource context module wire →
      let cell := newCell state.autoidx type [(sinkPort, [bit]), (sourcePort, [.wire (state.autoidx + 1) 0])]
      ChainAt context module state.autoidx [cell] wire bit state.autoidx (state.autoidx + 1) ∧
        ∀ c ∈ [cell], state.autoidx ≤ c.id ∧ ∀ entry ∈ c.connections, ∀ x ∈ entry.2,
          (x = bit ∧ c.id = state.autoidx) ∨ ∃ n, x = .wire n 0 ∧ state.autoidx < n := by
    intro type sinkPort sourcePort distinct sink source
    simp only [ChainAt, ← sink, ← source]
    refine ⟨⟨⟨_, List.mem_singleton_self _, newCell_id .., le_rfl, newCell_type .., newCell_getPort_sink _ _ distinct _ _⟩,
      ⟨_, List.mem_singleton_self _, (newCell_id ..).ge, newCell_type .., newCell_getPort_source ..⟩⟩, fun c mem => ?_⟩
    obtain rfl := List.mem_singleton.mp mem
    refine ⟨(newCell_id ..).ge, fun entry mem x xMem => ?_⟩
    rcases stage entry mem x xMem with rfl | rfl
    · exact .inl ⟨rfl, newCell_id ..⟩
    · exact .inr ⟨_, rfl, by omega⟩
  by_cases buffer : useBuffer context module wire = true <;> by_cases pad : usePad context module wire = true
  · let options := context.options
    refine ⟨[newCell (state.autoidx + 2) (escapeId options.inpadCelltype)
        [(escapeId options.inpadPortname, [.wire (state.autoidx + 1) 0]),
          (escapeId options.inpadPortname2, [.wire (state.autoidx + 3) 0])],
      newCell state.autoidx (escapeId options.bufCelltype) [(escapeId options.bufPortname, [bit]),
        (escapeId options.bufPortname2, [.wire (state.autoidx + 1) 0])]], state.autoidx + 3, ?_⟩
    simp only [insertChain, buffer, pad, if_true, Bool.or_true, addStage_cells, addStage_autoidx]
    refine ⟨rfl, rfl, by omega, by omega, ⟨⟨_, List.mem_cons_of_mem _ (List.mem_cons_self _ _),
      newCell_id .., le_rfl, (by simp [newCell_type, chainSink, buffer]),
      (by simpa [chainSink, buffer] using newCell_getPort_sink _ _ (bufNames buffer) _ _)⟩,
      ⟨_, List.mem_cons_self _ _, (by simp [newCell_id]), (by simp [newCell_type, chainSource, pad]),
        (by simpa [chainSource, pad] using newCell_getPort_source ..)⟩⟩, fun c mem => ?_⟩
    rcases List.mem_pair.mp mem with rfl | rfl <;> refine ⟨by simp [newCell_id], fun entry mem x xMem => ?_⟩
    · rcases stage entry mem x xMem with rfl | rfl <;> exact .inr ⟨_, rfl, by omega⟩
    · rcases stage entry mem x xMem with rfl | rfl
      · exact .inl ⟨rfl, newCell_id ..⟩
      · exact .inr ⟨_, rfl, by omega⟩
  · refine ⟨[newCell state.autoidx (escapeId context.options.bufCelltype)
      [(escapeId context.options.bufPortname, [bit]),
        (escapeId context.options.bufPortname2, [.wire (state.autoidx + 1) 0])]], state.autoidx + 1, ?_⟩
    simp only [insertChain, buffer, pad, if_true, if_false, Bool.or_false, Bool.false_eq_true,
      addStage_cells, addStage_autoidx]
    exact ⟨List.singleton_append.symm, rfl, by omega, by omega,
      single (bufNames buffer) (by simp [chainSink, buffer]) (by simp [chainSource, pad])⟩
  · refine ⟨[newCell state.autoidx (escapeId context.options.inpadCelltype)
      [(escapeId context.options.inpadPortname, [bit]),
        (escapeId context.options.inpadPortname2, [.wire (state.autoidx + 1) 0])]], state.autoidx + 1, ?_⟩
    simp only [insertChain, buffer, pad, if_true, if_false, Bool.false_or, Bool.false_eq_true,
      addStage_cells, addStage_autoidx]
    exact ⟨List.singleton_append.symm, rfl, by omega, by omega,
      single (padNames pad) (by simp [chainSink, buffer]) (by simp [chainSource, pad])⟩
  · exact absurd fires (by simp [buffer, pad])

end Chain

/-! ## Connections of the loop -/

section Connections

variable (context : Context) (module : Module) (sigmap : SigBit → SigBit) (tags : InvState)
  (driven : Finset SigBit)

theorem foldl_insertBit_connections (wire : Wire) (indices : List Nat) :
    ∀ acc : InsertState × Bool,
      (indices.foldl (insertBit context module sigmap tags driven wire) acc).1.module.connections =
        acc.1.module.connections := by
  induction indices with
  | nil => exact fun _ => rfl
  | cons i indices ih =>
    refine fun ⟨state, flag⟩ => (ih _).trans ?_
    simp only [insertBit]
    repeat' split
    all_goals simp [insertChain_connections]

/-- Only a chain on a bit of an input port sets the flag `input_bits`. -/
theorem insertBit_input (wire : Wire) (state : InsertState) (flag : Bool) (i : Nat)
    (set : (insertBit context module sigmap tags driven wire (state, flag) i).2 = true) :
    flag = true ∨ wire.portInput = true := by
  simp only [insertBit, apply_ite Prod.snd, ite_self] at set
  revert set
  split_ifs <;> simp_all

theorem foldl_insertBit_input (wire : Wire) (indices : List Nat) :
    ∀ acc : InsertState × Bool,
      (indices.foldl (insertBit context module sigmap tags driven wire) acc).2 = true →
        acc.2 = true ∨ wire.portInput = true := by
  induction indices with
  | nil => exact fun _ set => .inl set
  | cons i indices ih =>
    exact fun ⟨state, flag⟩ set =>
      (ih _ set).elim (insertBit_input context module sigmap tags driven wire state flag i) .inr

/-- Visiting a wire appends to the connections. -/
theorem insertWire_connections (state : InsertState) (wire : Wire) :
    ∃ extra, (insertWire context module sigmap tags driven state wire).module.connections =
      state.module.connections ++ extra := by
  unfold insertWire
  split
  · exact ⟨[], by simp⟩
  split
  · exact ⟨[], by split <;> simp⟩
  have kept := foldl_insertBit_connections context module sigmap tags driven wire (List.range wire.width)
    (state, false)
  revert kept
  generalize (List.range wire.width).foldl (insertBit context module sigmap tags driven wire) (state, false) = result
  obtain ⟨state', inputBits⟩ := result
  intro kept
  simp only at kept
  cases inputBits
  · exact ⟨[], by simpa using kept⟩
  · show ∃ extra, (rewireInput sigmap wire state').module.connections = _
    rw [rewireInput_module, kept]
    exact ⟨_, rfl⟩

theorem foldl_insertWire_connections (wires : List Wire) :
    ∀ state : InsertState, ∃ extra,
      (wires.foldl (insertWire context module sigmap tags driven) state).module.connections =
        state.module.connections ++ extra := by
  induction wires with
  | nil => exact fun state => ⟨[], by simp⟩
  | cons wire wires ih =>
    intro state
    obtain ⟨extra, first⟩ := insertWire_connections context module sigmap tags driven state wire
    obtain ⟨extra', rest⟩ := ih (insertWire context module sigmap tags driven state wire)
    exact ⟨extra ++ extra', by rw [List.foldl_cons, rest, first, List.append_assoc]⟩

end Connections

/-! ## What the loop keeps -/

/-- A wire with a bit among the bits of `wires` has its identity among theirs. -/
theorem id_mem_of_bit_mem {wires : List Wire} {wire : Wire} {j : Nat}
    (mem : wire.bit j ∈ wires.flatMap wireBits) : wire.id ∈ wires.map Wire.id := by
  obtain ⟨w, wMem, bitMem⟩ := List.mem_flatMap.mp mem
  obtain ⟨k, -, same⟩ := List.mem_map.mp bitMem
  exact (Wire.bit_inj same).1 ▸ List.mem_map_of_mem _ wMem

/-- A step keeps what the state before recorded, and its cells. -/
def Keeps (state state' : InsertState) : Prop :=
  (∀ b v, state.bufferedBits b = some v → state'.bufferedBits b = some v) ∧
    ∀ c ∈ state.module.cells, c ∈ state'.module.cells

theorem Keeps.refl (state : InsertState) : Keeps state state := ⟨fun _ _ => id, fun _ => id⟩

theorem Keeps.trans {state state' state'' : InsertState} (first : Keeps state state')
    (second : Keeps state' state'') : Keeps state state'' :=
  ⟨fun b v found => second.1 b v (first.1 b v found), fun c mem => second.2 c (first.2 c mem)⟩

theorem Keeps.of_eq {state state' : InsertState} (cells : state'.module.cells = state.module.cells)
    (buffered : state'.bufferedBits = state.bufferedBits) : Keeps state state' :=
  ⟨fun _ _ found => buffered ▸ found, fun _ mem => cells ▸ mem⟩

section Steps

variable {context : Context} {module : Module} {sigmap : SigBit → SigBit} {tags : InvState}
  {start : Nat} {seen : List SigBit} {state : InsertState}
  (distinct : (module.wires.map Wire.id).Nodup) (single : SingleDriver context module sigmap)
  (names : DistinctPortnames context)

/-- `Owned` reads of a state its cells, connections, `buffered_bits` and counter only. -/
theorem Owned.of_eq (owned : Owned context module sigmap tags start seen state) {state' : InsertState}
    (cells : state'.module.cells = state.module.cells) (buffered : state'.bufferedBits = state.bufferedBits)
    (autoidx : state'.autoidx = state.autoidx) (conns : state'.module.connections = state.module.connections) :
    Owned context module sigmap tags start seen state' := by
  obtain ⟨bound, sources, recorded, carried, complete, wired⟩ := owned
  refine ⟨?_, ?_, ?_, ?_, ?_, ?_⟩ <;> simp only [cells, buffered, autoidx, conns] <;> assumption

include distinct in
/-- A step that records nothing, visiting bits the loop does not buffer. -/
theorem Owned.skip (owned : Owned context module sigmap tags start seen state) {state' : InsertState}
    (cells : state'.module.cells = state.module.cells) (buffered : state'.bufferedBits = state.bufferedBits)
    (autoidx : state.autoidx ≤ state'.autoidx) (conns : state'.module.connections = state.module.connections)
    {wire : Wire} (mem : wire ∈ module.wires) (indices : List Nat)
    (idle : ∀ j ∈ indices, ¬ Site context module sigmap tags wire j) :
    Owned context module sigmap tags start (seen ++ indices.map wire.bit) state' := by
  refine ⟨owned.bound.trans autoidx, fun b cell iwire found => owned.sources b cell iwire (buffered ▸ found),
    fun b cell iwire found => ?_, fun c mem' => ?_, fun wire' mem' i seenMem site => ?_, conns ▸ owned.wired⟩
  · obtain ⟨wire', mem', i, seenMem, driver, same, chain⟩ := owned.recorded b cell iwire (buffered ▸ found)
    exact ⟨wire', mem', i, List.mem_append_left _ seenMem, driver, same, cells ▸ chain⟩
  · rw [buffered]
    exact owned.carried c (cells ▸ mem')
  · rw [buffered]
    rcases List.mem_append.mp seenMem with old | new
    · exact owned.complete wire' mem' i old site
    · obtain ⟨j, jMem, same⟩ := List.mem_map.mp new
      obtain ⟨ids, rfl⟩ := Wire.bit_inj same
      obtain rfl := List.inj_on_of_nodup_map distinct mem mem' ids
      exact absurd site (idle j jMem)

include single names in
/-- A chain on the canonical bit of a driver not visited before: that bit was not recorded,
and now is, with the new chain. -/
theorem Owned.insertChain (owned : Owned context module sigmap tags start seen state) {wire : Wire}
    (mem : wire ∈ module.wires) {i : Nat} (site : Site context module sigmap tags wire i)
    (unseen : wire.bit i ∉ seen) :
    let state' := Clkbufmap.insertChain context module wire (sigmap (wire.bit i)) state
    Owned context module sigmap tags start (seen ++ [wire.bit i]) state' ∧ Keeps state state' := by
  intro state'
  obtain ⟨added, iwire, cells, buffered, low, high, chain, bits⟩ :=
    insertChain_spec names site.2.2.2.2.2 (sigmap (wire.bit i)) state
  have fresh : state.bufferedBits (sigmap (wire.bit i)) = none := by
    rcases found : state.bufferedBits (sigmap (wire.bit i)) with _ | ⟨cell, iwire⟩
    · rfl
    obtain ⟨wire', -, i', seenMem, driver, same, -⟩ := owned.recorded _ _ _ found
    exact absurd (single _ driver _ (site.driver mem) same ▸ seenMem) unseen
  have kept : ∀ b v, state.bufferedBits b = some v → state'.bufferedBits b = some v := fun b v found => by
    have : b ≠ sigmap (wire.bit i) := fun same => by simp [same, fresh] at found
    simp [state', buffered, this, found]
  have grows : ∀ c ∈ state.module.cells, c ∈ state'.module.cells := fun c mem => by
    simp [state', cells, mem]
  have conns : state'.module.connections = state.module.connections := insertChain_connections ..
  refine ⟨⟨owned.bound.trans (low.trans high).le, fun b cell iwire' found => ?_, fun b cell iwire' found => ?_,
    fun c mem' low' => ?_, fun wire' mem' i' seenMem site' => ?_, conns ▸ owned.wired⟩, kept, grows⟩
  · by_cases hit : b = sigmap (wire.bit i)
    · simp only [state', buffered, hit, if_true, Option.some.injEq, Prod.mk.injEq] at found
      rw [← found.2]
      exact owned.bound.trans low.le
    · simp only [state', buffered, hit, if_false] at found
      exact owned.sources b cell iwire' found
  · by_cases hit : b = sigmap (wire.bit i)
    · subst hit
      simp only [state', buffered, if_true, Option.some.injEq, Prod.mk.injEq] at found
      obtain ⟨rfl, rfl⟩ := found
      refine ⟨wire, mem, i, List.mem_append_right _ (List.mem_singleton_self _), site.driver mem,
        rfl, ?_⟩
      simp only [ChainAt] at chain ⊢
      obtain ⟨⟨head, headMem, rest⟩, ⟨last, lastMem, lastLow, rest'⟩⟩ := chain
      exact ⟨⟨head, cells ▸ List.mem_append_left _ headMem, rest.1, owned.bound.trans rest.2.1, rest.2.2⟩,
        ⟨last, cells ▸ List.mem_append_left _ lastMem, owned.bound.trans lastLow, rest'⟩⟩
    · simp only [state', buffered, hit, if_false] at found
      obtain ⟨wire', mem', i', seenMem, driver, same, chain⟩ := owned.recorded b cell iwire' found
      exact ⟨wire', mem', i', List.mem_append_left _ seenMem, driver, same, chain.mono grows⟩
  · rw [cells] at mem'
    intro entry entryMem x xMem old
    rcases List.mem_append.mp mem' with new | mem'
    · rcases (bits c new).2 entry entryMem x xMem with ⟨rfl, same⟩ | ⟨n, rfl, lt⟩
      · exact ⟨iwire, by simp [state', buffered, same]⟩
      · exact absurd old (by simp only [Old]; have := owned.bound; omega)
    · obtain ⟨iwire', found⟩ := owned.carried c mem' low' entry entryMem x xMem old
      exact ⟨iwire', kept _ _ found⟩
  · rcases List.mem_append.mp seenMem with old | new
    · obtain ⟨cell, iwire', found⟩ := owned.complete wire' mem' i' old site'
      exact ⟨cell, iwire', kept _ _ found⟩
    · rw [List.mem_singleton.mp new]
      exact ⟨state.autoidx, iwire, by simp [state', buffered]⟩

include distinct single names in
/-- One bit of lines 290-335. -/
theorem Owned.insertBit (owned : Owned context module sigmap tags start seen state) {wire : Wire}
    (mem : wire ∈ module.wires) (considered : Considered context module wire) {i : Nat}
    (lt : i < wire.width) (unseen : wire.bit i ∉ seen) (flag : Bool) :
    let state' := (Clkbufmap.insertBit context module sigmap tags (drivenWireBits context.output module)
      wire (state, flag) i).1
    Owned context module sigmap tags start (seen ++ [wire.bit i]) state' ∧ Keeps state state' := by
  have skip : ∀ {state' : InsertState}, state'.module.cells = state.module.cells →
      state'.bufferedBits = state.bufferedBits → state'.autoidx = state.autoidx →
      state'.module.connections = state.module.connections → ¬ Site context module sigmap tags wire i →
      Owned context module sigmap tags start (seen ++ [wire.bit i]) state' ∧ Keeps state state' :=
    fun cells buffered autoidx conns idle => ⟨owned.skip distinct cells buffered autoidx.ge conns mem [i]
      (by simpa using idle), Keeps.of_eq cells buffered⟩
  simp only [Clkbufmap.insertBit]
  by_cases buf : sigmap (wire.bit i) ∈ tags.buf
  · rw [if_pos buf]
    split <;> exact skip rfl rfl rfl rfl fun site => site.2.2.1 buf
  rw [if_neg buf]
  by_cases sink : sigmap (wire.bit i) ∈ tags.sink
  · simp only [sink, not_true_eq_false, if_false]
    split
    · rename_i drives
      by_cases fires : useBuffer context module wire = true ∨ usePad context module wire = true
      · exact owned.insertChain single names mem ⟨considered, lt, buf, sink, drives, fires⟩ unseen
      · rw [insertChain_idle context module fires]
        exact skip rfl rfl rfl rfl fun site => fires site.2.2.2.2.2
    · rename_i quiet
      split <;> exact skip rfl rfl rfl rfl fun site => quiet site.2.2.2.2.1
  · simp only [sink, not_false_eq_true, if_true]
    exact skip rfl rfl rfl rfl fun site => sink site.2.2.2.1

include distinct single names in
/-- The bit loop of one considered wire (lines 288-336). -/
theorem Owned.foldl_insertBit {wire : Wire} (mem : wire ∈ module.wires)
    (considered : Considered context module wire) :
    ∀ (indices : List Nat), (∀ j ∈ indices, j < wire.width) → indices.Nodup →
      ∀ {seen : List SigBit} {state : InsertState} (flag : Bool),
        Owned context module sigmap tags start seen state → (∀ j ∈ indices, wire.bit j ∉ seen) →
        let state' := (indices.foldl (Clkbufmap.insertBit context module sigmap tags
          (drivenWireBits context.output module) wire) (state, flag)).1
        Owned context module sigmap tags start (seen ++ indices.map wire.bit) state' ∧ Keeps state state'
  | [], _, _, _, _, _, owned, _ => ⟨by simpa using owned, Keeps.refl _⟩
  | i :: indices, within, nodup, seen, state, flag, owned, unseen => by
    obtain ⟨notMem, nodup⟩ := List.nodup_cons.mp nodup
    obtain ⟨owned', keeps⟩ := owned.insertBit distinct single names mem considered
      (within i (List.mem_cons_self _ _)) (unseen i (List.mem_cons_self _ _)) flag
    have unseen' : ∀ j ∈ indices, wire.bit j ∉ seen ++ [wire.bit i] := fun j jMem seenMem => by
      rcases List.mem_append.mp seenMem with old | new
      · exact unseen j (List.mem_cons_of_mem _ jMem) old
      · exact notMem ((Wire.bit_inj (List.mem_singleton.mp new)).2 ▸ jMem)
    obtain ⟨owned'', keeps'⟩ := Owned.foldl_insertBit mem considered indices
      (fun j jMem => within j (List.mem_cons_of_mem _ jMem)) nodup _ owned' unseen'
    have visited : seen ++ [wire.bit i] ++ indices.map wire.bit = seen ++ (i :: indices).map wire.bit := by
      simp
    exact ⟨visited ▸ owned'', keeps.trans keeps'⟩

theorem rewireInput_cells (sigmap : SigBit → SigBit) (wire : Wire) (state : InsertState) :
    (rewireInput sigmap wire state).module.cells = state.module.cells := by
  rw [rewireInput_module]

/-- Lines 337-354 after the bit loop of an input port: the copy's bits are connected from
new bits, or from bits of the port that the loop does not buffer. -/
theorem Owned.rewireInput (owned : Owned context module sigmap tags start seen state) {wire : Wire}
    (mem : wire ∈ module.wires) (input : wire.portInput = true) (visited : ∀ i < wire.width, wire.bit i ∈ seen) :
    Owned context module sigmap tags start seen (Clkbufmap.rewireInput sigmap wire state) := by
  obtain ⟨added, conns, addedSpec⟩ := owned.wired
  have cells := rewireInput_cells sigmap wire state
  refine ⟨owned.bound.trans (Nat.le_succ _), owned.sources, fun b cell iwire found => ?_,
    fun c mem' => ?_, owned.complete, ⟨added ++ (List.range wire.width).map fun i =>
      (inputSource sigmap state.bufferedBits wire i, .wire state.autoidx i), by
        rw [rewireInput_module]; simp [conns], fun entry entryMem => ?_⟩⟩
  · rw [cells]
    exact owned.recorded b cell iwire found
  · rw [cells] at mem'
    exact owned.carried c mem'
  rcases List.mem_append.mp entryMem with old | new
  · exact addedSpec entry old
  obtain ⟨i, lt, rfl⟩ := List.mem_map.mp new
  have bound := owned.bound
  refine ⟨by simp only [Old]; omega, ?_⟩
  unfold inputSource
  split
  · rename_i cell iwire found
    have := owned.sources _ cell iwire found
    exact .inl (by simp only [Old]; omega)
  · rename_i found
    refine .inr ⟨wire, mem, input, i, List.mem_range.mp lt, rfl, fun site => ?_⟩
    obtain ⟨cell, iwire, recorded⟩ := owned.complete wire mem i (visited i (List.mem_range.mp lt)) site
    simp [recorded] at found

include distinct single names in
/-- One wire of lines 269-355. -/
theorem Owned.insertWire (owned : Owned context module sigmap tags start seen state) {wire : Wire}
    (mem : wire ∈ module.wires) (unseen : ∀ j, wire.bit j ∉ seen) :
    let state' := Clkbufmap.insertWire context module sigmap tags (drivenWireBits context.output module)
      state wire
    Owned context module sigmap tags start (seen ++ wireBits wire) state' ∧ Keeps state state' := by
  have skip : ∀ {state' : InsertState}, state'.module.cells = state.module.cells →
      state'.bufferedBits = state.bufferedBits → state'.autoidx = state.autoidx →
      state'.module.connections = state.module.connections → ¬ Considered context module wire →
      Owned context module sigmap tags start (seen ++ wireBits wire) state' ∧ Keeps state state' :=
    fun cells buffered autoidx conns idle => ⟨owned.skip distinct cells buffered autoidx.ge conns mem _
      fun _ _ site => idle site.1, Keeps.of_eq cells buffered⟩
  unfold Clkbufmap.insertWire
  split
  · exact skip rfl rfl rfl rfl fun considered => considered.1 ‹_›
  split
  · rename_i skipped
    split <;> exact skip rfl rfl rfl rfl fun considered => by simp [considered.2] at skipped
  rename_i inout processed
  have considered : Considered context module wire := ⟨inout, by simpa using processed⟩
  obtain ⟨owned', keeps⟩ := Owned.foldl_insertBit distinct single names mem considered
    (List.range wire.width) (fun j => List.mem_range.mp) (List.nodup_range _) false
    owned fun j _ => unseen j
  have input := foldl_insertBit_input context module sigmap tags (drivenWireBits context.output module)
    wire (List.range wire.width) (state, false)
  revert owned' keeps input
  generalize (List.range wire.width).foldl (Clkbufmap.insertBit context module sigmap tags
    (drivenWireBits context.output module) wire) (state, false) = result
  obtain ⟨state₁, inputBits⟩ := result
  intro owned' keeps input
  simp only [Bool.false_eq_true, false_or] at input
  cases inputBits
  · exact ⟨owned', keeps⟩
  · exact ⟨owned'.rewireInput mem (input rfl) fun i lt =>
        List.mem_append_right _ (List.mem_map_of_mem _ (List.mem_range.mpr lt)),
      keeps.trans (Keeps.of_eq (rewireInput_cells sigmap wire state₁) rfl)⟩

include distinct single names in
/-- The wire loop over wires not visited before (lines 269-355). -/
theorem Owned.foldl_insertWire :
    ∀ (rest : List Wire), (∀ wire ∈ rest, wire ∈ module.wires) → (rest.map Wire.id).Nodup →
      ∀ {seen : List SigBit} {state : InsertState}, Owned context module sigmap tags start seen state →
        (∀ wire ∈ rest, ∀ j, wire.bit j ∉ seen) →
        let state' := rest.foldl (Clkbufmap.insertWire context module sigmap tags
          (drivenWireBits context.output module)) state
        Owned context module sigmap tags start (seen ++ rest.flatMap wireBits) state' ∧ Keeps state state'
  | [], _, _, _, _, owned, _ => ⟨by simpa using owned, Keeps.refl _⟩
  | wire :: rest, within, nodup, seen, state, owned, unseen => by
    obtain ⟨notMem, nodup⟩ := List.nodup_cons.mp nodup
    obtain ⟨owned', keeps⟩ := owned.insertWire distinct single names (within wire (List.mem_cons_self _ _))
      (unseen wire (List.mem_cons_self _ _))
    have unseen' : ∀ w ∈ rest, ∀ j, w.bit j ∉ seen ++ wireBits wire := fun w wMem j seenMem => by
      rcases List.mem_append.mp seenMem with old | new
      · exact unseen w (List.mem_cons_of_mem _ wMem) j old
      · obtain ⟨k, -, same⟩ := List.mem_map.mp new
        exact notMem ((Wire.bit_inj same).1 ▸ List.mem_map_of_mem _ wMem)
    obtain ⟨owned'', keeps'⟩ := Owned.foldl_insertWire rest
      (fun w wMem => within w (List.mem_cons_of_mem _ wMem)) nodup owned' unseen'
    have visited : seen ++ wireBits wire ++ rest.flatMap wireBits = seen ++ (wire :: rest).flatMap wireBits := by
      simp
    exact ⟨visited ▸ owned'', keeps.trans keeps'⟩

end Steps

/-- Nothing is recorded when the loop starts. -/
theorem owned_start {context : Context} {module : Module} {sigmap : SigBit → SigBit} {tags : InvState}
    {start : Nat} (fresh : Fresh module start) (sinkPorts bufPorts : Finset PortKey) :
    Owned context module sigmap tags start [] ⟨module, start, sinkPorts, bufPorts, fun _ => none, []⟩ :=
  ⟨le_rfl, fun _ _ _ found => (nomatch found), fun _ _ _ found => (nomatch found),
    fun c mem low => absurd (fresh.cells c mem) (Nat.not_lt.mpr low), fun _ _ _ seenMem => (nomatch seenMem),
    ⟨[], by simp, by simp⟩⟩


section Loop

variable {context : Context} {module : Module} {sigmap : SigBit → SigBit} {tags : InvState}
  {start : Nat} (fresh : Fresh module start) (distinct : (module.wires.map Wire.id).Nodup)
  (single : SingleDriver context module sigmap) (names : DistinctPortnames context)

include fresh distinct single names in
/-- After the loop and the publication of output ports (lines 269-368), with every bit of
every wire visited. -/
theorem owned_insertBuffers (sinkPorts bufPorts : Finset PortKey) :
    Owned context module sigmap tags start (module.wires.flatMap wireBits)
      (insertBuffers context module sigmap tags start sinkPorts bufPorts) := by
  have loop := (Owned.foldl_insertWire distinct single names module.wires (fun _ mem => mem) distinct
    (owned_start fresh sinkPorts bufPorts : Owned context module sigmap tags start [] _)
    (fun _ _ _ seenMem => nomatch seenMem)).1
  exact (List.nil_append _ ▸ loop).of_eq rfl rfl rfl rfl

include fresh distinct single names in
/-- Every bit the loop buffers has its chain, recorded under its canonical bit. -/
theorem insertBuffers_chain (sinkPorts bufPorts : Finset PortKey) {wire : Wire} (mem : wire ∈ module.wires)
    {i : Nat} (site : Site context module sigmap tags wire i) :
    let state := insertBuffers context module sigmap tags start sinkPorts bufPorts
    ∃ cell iwire, state.bufferedBits (sigmap (wire.bit i)) = some (cell, iwire) ∧
      ChainAt context module start state.module.cells wire (sigmap (wire.bit i)) cell iwire := by
  have owned : Owned context module sigmap tags start _ (insertBuffers context module sigmap tags start
      sinkPorts bufPorts) := owned_insertBuffers fresh distinct single names sinkPorts bufPorts
  obtain ⟨cell, iwire, found⟩ := owned.complete wire mem i
    (List.mem_flatMap.mpr ⟨wire, mem, List.mem_map_of_mem _ (List.mem_range.mpr site.2.1)⟩) site
  obtain ⟨wire', mem', i', -, driver, same, chain⟩ := owned.recorded _ _ _ found
  obtain ⟨ids, rfl⟩ := Wire.bit_inj (single _ driver _ (site.driver mem) same)
  obtain rfl := List.inj_on_of_nodup_map distinct mem' mem ids
  exact ⟨cell, iwire, found, chain⟩

include distinct single names in
/-- Visiting an input port with a bit the loop buffers rebuilds it (lines 337-354): its copy
is queued, and the copy's bit is connected from the source side of that bit's chain. -/
theorem Owned.insertWire_input {seen : List SigBit} {state : InsertState}
    (owned : Owned context module sigmap tags start seen state) {wire : Wire} (mem : wire ∈ module.wires)
    (unseen : ∀ j, wire.bit j ∉ seen) {i : Nat} (site : Site context module sigmap tags wire i)
    (input : wire.portInput = true) :
    let state' := Clkbufmap.insertWire context module sigmap tags (drivenWireBits context.output module)
      state wire
    ∃ copy cell iwire, state'.bufferedBits (sigmap (wire.bit i)) = some (cell, iwire) ∧
      (wire.id, copy) ∈ state'.inputQueue ∧ (.wire iwire 0, .wire copy i) ∈ state'.module.connections := by
  have considered := site.1
  obtain ⟨owned', -⟩ := Owned.foldl_insertBit distinct single names mem considered (List.range wire.width)
    (fun j => List.mem_range.mp) (List.nodup_range _) false owned fun j _ => unseen j
  have flag : ((List.range wire.width).foldl (Clkbufmap.insertBit context module sigmap tags
      (drivenWireBits context.output module) wire) (state, false)).2 = true :=
    foldl_insertBit_flag input _ (.inr ⟨i, List.mem_range.mpr site.2.1, site.2.2.1, site.2.2.2.1,
      site.2.2.2.2.1.imp_right And.right⟩)
  obtain ⟨cell, iwire, found⟩ := owned'.complete wire mem i
    (List.mem_append_right _ (List.mem_map_of_mem _ (List.mem_range.mpr site.2.1))) site
  unfold Clkbufmap.insertWire
  rw [if_neg considered.1, if_neg (by simpa using considered.2)]
  revert found flag
  generalize (List.range wire.width).foldl (Clkbufmap.insertBit context module sigmap tags
    (drivenWireBits context.output module) wire) (state, false) = result
  obtain ⟨state₁, inputBits⟩ := result
  intro flag found
  simp only at found flag
  subst flag
  show ∃ copy cell iwire, (Clkbufmap.rewireInput sigmap wire state₁).bufferedBits (sigmap (wire.bit i)) = some (cell, iwire) ∧
    (wire.id, copy) ∈ (Clkbufmap.rewireInput sigmap wire state₁).inputQueue ∧
    (SigBit.wire iwire 0, SigBit.wire copy i) ∈ (Clkbufmap.rewireInput sigmap wire state₁).module.connections
  refine ⟨state₁.autoidx, cell, iwire, found, by simp [Clkbufmap.rewireInput], ?_⟩
  rw [rewireInput_module]
  refine List.mem_append_right _ (List.mem_map.mpr ⟨i, List.mem_range.mpr site.2.1, ?_⟩)
  simp [inputSource, found]

include fresh distinct single names in
/-- Every input port with a bit the loop buffers is rebuilt, and the copy's bit is connected
from the source side of the chain on that bit. -/
theorem insertBuffers_input (sinkPorts bufPorts : Finset PortKey) {wire : Wire} (mem : wire ∈ module.wires)
    {i : Nat} (site : Site context module sigmap tags wire i) (input : wire.portInput = true) :
    let state := insertBuffers context module sigmap tags start sinkPorts bufPorts
    ∃ copy cell iwire, state.bufferedBits (sigmap (wire.bit i)) = some (cell, iwire) ∧
      (wire.id, copy) ∈ state.inputQueue ∧ (.wire iwire 0, .wire copy i) ∈ state.module.connections := by
  obtain ⟨pre, post, split⟩ := List.append_of_mem mem
  have parts := distinct
  rw [split, List.map_append, List.map_cons, List.nodup_append, List.nodup_cons] at parts
  obtain ⟨preNodup, ⟨notPost, postNodup⟩, apart⟩ := parts
  have within : ∀ l : List Wire, (∀ w ∈ l, w ∈ pre ++ wire :: post) → ∀ w ∈ l, w ∈ module.wires :=
    fun _ sub w wMem => split ▸ sub w wMem
  obtain ⟨owned₁, -⟩ := Owned.foldl_insertWire distinct single names pre
    (within pre fun w wMem => List.mem_append_left _ wMem) preNodup
    (owned_start fresh sinkPorts bufPorts : Owned context module sigmap tags start [] _)
    (fun _ _ _ seenMem => nomatch seenMem)
  have unseen : ∀ j, wire.bit j ∉ [] ++ pre.flatMap wireBits := fun j seenMem =>
    apart (id_mem_of_bit_mem (by simpa using seenMem)) (List.mem_cons_self _ _)
  obtain ⟨copy, cell, iwire, found, queued, connected⟩ :=
    owned₁.insertWire_input distinct single names mem unseen site input
  obtain ⟨owned₂, -⟩ := owned₁.insertWire distinct single names mem unseen
  obtain ⟨-, keeps⟩ := Owned.foldl_insertWire distinct single names post
    (within post fun w wMem => List.mem_append_right _ (List.mem_cons_of_mem _ wMem)) postNodup owned₂
    fun w wMem j seenMem => by
      rcases List.mem_append.mp seenMem with old | new
      · exact apart (id_mem_of_bit_mem (by simpa using old)) (List.mem_cons_of_mem _
          (List.mem_map_of_mem _ wMem))
      · obtain ⟨k, -, same⟩ := List.mem_map.mp new
        exact notPost ((Wire.bit_inj same).1 ▸ List.mem_map_of_mem _ wMem)
  obtain ⟨extra, queue⟩ := foldl_insertWire_inputQueue post
    (insertWire context module sigmap tags (drivenWireBits context.output module)
      (pre.foldl (insertWire context module sigmap tags (drivenWireBits context.output module))
        ⟨module, start, sinkPorts, bufPorts, fun _ => none, []⟩) wire)
  obtain ⟨extra', connections⟩ := foldl_insertWire_connections context module sigmap tags
    (drivenWireBits context.output module) post
    (insertWire context module sigmap tags (drivenWireBits context.output module)
      (pre.foldl (insertWire context module sigmap tags (drivenWireBits context.output module))
        ⟨module, start, sinkPorts, bufPorts, fun _ => none, []⟩) wire)
  refine ⟨copy, cell, iwire, ?_, ?_, ?_⟩ <;>
    simp only [insertBuffers, publishOutputs, split, List.foldl_append, List.foldl_cons]
  · exact keeps.1 _ _ found
  · rw [queue.1]
    exact List.mem_append_left _ queued
  · rw [connections]
    exact List.mem_append_left _ connected

end Loop

end SynthesisRepo.Verified
