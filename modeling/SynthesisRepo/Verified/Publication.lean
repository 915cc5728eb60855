import SynthesisRepo.Verified.Chains
import SynthesisRepo.Verified.ModuleLoop

/-! # What a module publishes for the modules above it

A module's run hands two kinds of port bits up the hierarchy through the tag tables, under
the module's own name.  A clock input that the module leaves unbuffered, because it is not
the top module (lines 329-335), goes to `sink_ports`, so that the module instantiating it
sees a sink on the net it connects there.  An output port goes to `buf_ports` when the loop
leaves it out (lines 234-241 and 276-284), when its bit is already buffered (lines
292-295), or when a chain went on its net (lines 357-368), so that the parent does not
buffer that net again.

`insertBit`, `insertWire`, `publishOutputs` and `collectBufBits` each add keys to the tables,
and each key set they build is stated exactly, one fold at a time (`mem_foldl_iff`).

**Main results**

* `processModule_published`: the keys a run adds to `sink_ports` are exactly its
  `DeferredSink` bits, those it adds to `buf_ports` exactly its `PublishedBuffered` bits, and
  the inverter tables are unchanged.
* `moduleLoop_children_publish`: when the loop reaches a module, every module it
  instantiates that is not a blackbox has already run, and what that run published is in the
  tables.
* `moduleLoop_no_second_buffer`: when the loop runs a module, no cell it inserts is on the
  net of an instance's output bit that the instantiated module buffered and published.
-/

namespace SynthesisRepo.Verified

open Rtlil Clkbufmap

/-! ## Membership in what a fold builds -/

/-- A fold whose step adds the items `add a` to a collection holds, at the end, what it
started with and what some element added. -/
theorem mem_foldl_iff {α β γ : Type} (f : β → α → β) (mem : β → γ → Prop) (add : α → γ → Prop)
    (step : ∀ b a x, mem (f b a) x ↔ mem b x ∨ add a x) (x : γ) :
    ∀ (l : List α) (b : β), mem (l.foldl f b) x ↔ mem b x ∨ ∃ a ∈ l, add a x
  | [], b => by simp
  | a :: l, b => by
    rw [List.foldl_cons, mem_foldl_iff f mem add step x l, step, or_assoc]
    simp only [List.mem_cons, or_and_right, exists_or, exists_eq_left]

/-! ## The keys a run publishes -/

section Keys

variable (context : Context) (module : Module) (sigmap : SigBit → SigBit) (tags : InvState)

/-- Lines 329-335: bit `i` of `wire` is a clock input the module leaves to the modules above
it: a bit of a considered input port of a module that is not the top, whose canonical bit is
a sink not yet buffered, and which no cell of the module drives. -/
def DeferredSink (wire : Wire) (i : Nat) : Prop :=
  Considered context module wire ∧ i < wire.width ∧ sigmap (wire.bit i) ∉ tags.buf ∧
    sigmap (wire.bit i) ∈ tags.sink ∧ wire.bit i ∉ drivenWireBits context.output module ∧
    wire.portInput = true ∧ module.top = false

/-- Lines 234-241, 276-284, 292-295 and 357-368: bit `i` of the output port `wire` is published as
buffered: the loop leaves the wire out, or its canonical bit is already buffered, or the wire
is selected and a chain went on its canonical bit. -/
def PublishedBuffered (wire : Wire) (i : Nat) : Prop :=
  wire.portOutput = true ∧ wire.portInput = false ∧ i < wire.width ∧
    (processWire context module wire = false ∨ sigmap (wire.bit i) ∈ tags.buf ∨
      context.selected module.name wire.name = true ∧
        ∃ site ∈ module.wires, ∃ j, Site context module sigmap tags site j ∧
          sigmap (site.bit j) = sigmap (wire.bit i))

end Keys

/-! ## One bit, one wire -/

variable {context : Context} {module : Module} {sigmap : SigBit → SigBit} {tags : InvState}
  {driven : Finset SigBit}

theorem insertChain_bufferedBits_isSome (wire : Wire) (bit : SigBit) (state : InsertState) (b : SigBit) :
    ((insertChain context module wire bit state).bufferedBits b).isSome ↔ (state.bufferedBits b).isSome ∨
      b = bit ∧ (useBuffer context module wire = true ∨ usePad context module wire = true) := by
  unfold insertChain
  by_cases same : b = bit <;> cases useBuffer context module wire <;> cases usePad context module wire <;>
    simp [same, addStage]

/-- What bit `i` of `wire` adds, branch by branch of lines 290-335: a sink key for a clock
input left to the modules above, a buffered key for an output already buffered, and a chain
on the canonical bit of a clock net driven here. -/
theorem insertBit_spec (wire : Wire) (acc : InsertState × Bool) (i : Nat) (key : PortKey) (b : SigBit) :
    (key ∈ (insertBit context module sigmap tags driven wire acc i).1.sinkPorts ↔ key ∈ acc.1.sinkPorts ∨
      key = (module.name, wire.name, i) ∧ sigmap (wire.bit i) ∉ tags.buf ∧ sigmap (wire.bit i) ∈ tags.sink ∧
        ¬ (wire.bit i ∈ driven ∨ (wire.portInput = true ∧ module.top = true)) ∧ wire.portInput = true) ∧
    (key ∈ (insertBit context module sigmap tags driven wire acc i).1.bufPorts ↔ key ∈ acc.1.bufPorts ∨
      key = (module.name, wire.name, i) ∧ sigmap (wire.bit i) ∈ tags.buf ∧ wire.portOutput = true) ∧
    (((insertBit context module sigmap tags driven wire acc i).1.bufferedBits b).isSome ↔
      (acc.1.bufferedBits b).isSome ∨ b = sigmap (wire.bit i) ∧ sigmap (wire.bit i) ∉ tags.buf ∧
        sigmap (wire.bit i) ∈ tags.sink ∧ (wire.bit i ∈ driven ∨ (wire.portInput = true ∧ module.top = true)) ∧
        (useBuffer context module wire = true ∨ usePad context module wire = true)) := by
  unfold insertBit
  by_cases buf : sigmap (wire.bit i) ∈ tags.buf
  · cases out : wire.portOutput <;> simp [buf, out, or_comm]
  by_cases sink : sigmap (wire.bit i) ∈ tags.sink
  · by_cases chain : wire.bit i ∈ driven ∨ (wire.portInput = true ∧ module.top = true)
    · simp [buf, sink, chain, insertChain_bufferedBits_isSome]
    · obtain ⟨notDriven, notTop⟩ := not_or.mp chain
      cases input : wire.portInput
      · simp [buf, sink, notDriven, input]
      · have top : module.top = false := by simpa [input] using notTop
        simp [buf, sink, notDriven, input, top, or_comm]
  · simp [buf, sink]

theorem mem_portKeys_iff {type name : IdString} {width : Nat} {key : PortKey} :
    key ∈ portKeys type name width ↔ ∃ i ∈ List.range width, key = (type, name, i) := by
  simp [portKeys, eq_comm]

theorem insertWire_considered {wire : Wire} (considered : Considered context module wire) (state : InsertState) :
    insertWire context module sigmap tags driven state wire =
      let acc := (List.range wire.width).foldl (insertBit context module sigmap tags driven wire) (state, false)
      if acc.2 then rewireInput sigmap wire acc.1 else acc.1 := by
  unfold insertWire
  rw [if_neg considered.1, if_neg (by simp [considered.2])]

theorem insertWire_of_not_considered {wire : Wire} (left : ¬ Considered context module wire) (state : InsertState) :
    insertWire context module sigmap tags driven state wire =
      if ¬ (wire.portInput = true ∧ wire.portOutput = true) ∧ wire.portOutput = true then
        { state with bufPorts := state.bufPorts ∪ portKeys module.name wire.name wire.width }
      else state := by
  unfold insertWire
  by_cases inout : wire.portInput = true ∧ wire.portOutput = true
  · simp [inout]
  · have plain : processWire context module wire = false := by simpa [Considered, inout] using left
    simp [inout, plain]

theorem mem_insertWire_sinkPorts (state : InsertState) (wire : Wire) (key : PortKey) :
    key ∈ (insertWire context module sigmap tags driven state wire).sinkPorts ↔ key ∈ state.sinkPorts ∨
      Considered context module wire ∧ ∃ i ∈ List.range wire.width, key = (module.name, wire.name, i) ∧
        sigmap (wire.bit i) ∉ tags.buf ∧ sigmap (wire.bit i) ∈ tags.sink ∧
        ¬ (wire.bit i ∈ driven ∨ (wire.portInput = true ∧ module.top = true)) ∧ wire.portInput = true := by
  by_cases considered : Considered context module wire
  · rw [insertWire_considered considered]
    have bits := mem_foldl_iff (insertBit context module sigmap tags driven wire)
      (fun acc key => key ∈ acc.1.sinkPorts) _ (fun acc i key => (insertBit_spec wire acc i key (wire.bit i)).1) key
      (List.range wire.width) (state, false)
    dsimp only at bits ⊢
    split <;> simpa [considered] using bits
  · rw [insertWire_of_not_considered considered]
    split <;> simp [considered]

theorem mem_insertWire_bufPorts (state : InsertState) (wire : Wire) (key : PortKey) :
    key ∈ (insertWire context module sigmap tags driven state wire).bufPorts ↔ key ∈ state.bufPorts ∨
      ¬ (wire.portInput = true ∧ wire.portOutput = true) ∧ wire.portOutput = true ∧
        ∃ i ∈ List.range wire.width, key = (module.name, wire.name, i) ∧
          (processWire context module wire = false ∨ sigmap (wire.bit i) ∈ tags.buf) := by
  by_cases considered : Considered context module wire
  · rw [insertWire_considered considered]
    have bits := mem_foldl_iff (insertBit context module sigmap tags driven wire)
      (fun acc key => key ∈ acc.1.bufPorts) _ (fun acc i key => (insertBit_spec wire acc i key (wire.bit i)).2.1) key
      (List.range wire.width) (state, false)
    dsimp only at bits ⊢
    have process := considered.2
    split <;> simpa [considered.1, process, and_comm, and_left_comm] using bits
  · rw [insertWire_of_not_considered considered]
    by_cases out : ¬ (wire.portInput = true ∧ wire.portOutput = true) ∧ wire.portOutput = true
    · have plain : processWire context module wire = false := by simpa [Considered, out.1] using considered
      have notIn : ¬ wire.portInput = true := fun input => out.1 ⟨input, out.2⟩
      rw [if_pos out]
      simp [-mem_portKeys, mem_portKeys_iff, notIn, out.2, plain]
    · rw [if_neg out]
      exact ⟨.inl, fun held => held.elim id fun added => absurd ⟨added.1, added.2.1⟩ out⟩

theorem insertWire_bufferedBits_isSome (state : InsertState) (wire : Wire) (b : SigBit) :
    ((insertWire context module sigmap tags driven state wire).bufferedBits b).isSome ↔
      (state.bufferedBits b).isSome ∨ Considered context module wire ∧ ∃ i ∈ List.range wire.width,
        b = sigmap (wire.bit i) ∧ sigmap (wire.bit i) ∉ tags.buf ∧ sigmap (wire.bit i) ∈ tags.sink ∧
        (wire.bit i ∈ driven ∨ (wire.portInput = true ∧ module.top = true)) ∧
        (useBuffer context module wire = true ∨ usePad context module wire = true) := by
  by_cases considered : Considered context module wire
  · rw [insertWire_considered considered]
    have bits := mem_foldl_iff (insertBit context module sigmap tags driven wire)
      (fun acc b => (acc.1.bufferedBits b).isSome) _
      (fun acc i b => (insertBit_spec wire acc i (module.name, wire.name, i) b).2.2) b
      (List.range wire.width) (state, false)
    dsimp only at bits ⊢
    split <;> simpa [considered] using bits
  · rw [insertWire_of_not_considered considered]
    split <;> simp [considered]

/-! ## The whole insertion -/

theorem mem_collectBufBits_bufPorts (wires : List Wire) (bufPorts : Finset PortKey) (key : PortKey) :
    key ∈ (collectBufBits context module sigmap wires bufPorts).2 ↔ key ∈ bufPorts ∨
      ∃ wire ∈ wires, ¬ (wire.portInput = true ∧ wire.portOutput = true) ∧ wire.portOutput = true ∧
        ∃ i ∈ List.range wire.width, key = (module.name, wire.name, i) ∧ processWire context module wire = false :=
  mem_foldl_iff (collectBufBit context module sigmap) (fun acc key => key ∈ acc.2)
    (fun (wire : Wire) key => ¬ (wire.portInput = true ∧ wire.portOutput = true) ∧ wire.portOutput = true ∧
      ∃ i ∈ List.range wire.width, key = (module.name, wire.name, i) ∧ processWire context module wire = false)
    (fun acc wire key => by
    unfold collectBufBit
    by_cases inout : wire.portInput = true ∧ wire.portOutput = true
    · simp [inout]
    · by_cases plain : processWire context module wire = false
      · by_cases out : wire.portOutput = true
        · have notIn : wire.portInput = false := by simpa [out] using inout
          simp [-mem_portKeys, mem_portKeys_iff, notIn, plain, out]
        · simp [inout, plain, out]
      · simp [inout, plain]) key wires ([], bufPorts)

theorem mem_bufferedKeys {bufferedBits : SigBit → Option (Nat × Nat)} {wire : Wire} {key : PortKey} :
    key ∈ bufferedKeys module sigmap bufferedBits wire ↔
      ∃ i ∈ List.range wire.width, key = (module.name, wire.name, i) ∧ (bufferedBits (sigmap (wire.bit i))).isSome := by
  simp only [bufferedKeys, List.mem_toFinset, List.mem_map, List.mem_filter]
  constructor
  · rintro ⟨i, ⟨mem, some⟩, rfl⟩; exact ⟨i, mem, rfl, some⟩
  · rintro ⟨i, mem, rfl, some⟩; exact ⟨i, ⟨mem, some⟩, rfl⟩

theorem mem_publishOutputs_bufPorts (state : InsertState) (key : PortKey) :
    key ∈ (publishOutputs context module sigmap state).bufPorts ↔ key ∈ state.bufPorts ∨
      ∃ wire ∈ state.module.wires, context.selected module.name wire.name = true ∧ wire.portInput = false ∧
        wire.portOutput = true ∧ ∃ i ∈ List.range wire.width, key = (module.name, wire.name, i) ∧
          (state.bufferedBits (sigmap (wire.bit i))).isSome :=
  mem_foldl_iff _ (fun keys key => key ∈ keys)
    (fun (wire : Wire) key => context.selected module.name wire.name = true ∧ wire.portInput = false ∧
      wire.portOutput = true ∧ ∃ i ∈ List.range wire.width, key = (module.name, wire.name, i) ∧
        (state.bufferedBits (sigmap (wire.bit i))).isSome)
    (fun keys wire key => by
    split
    · rename_i skipped
      simp only [Bool.or_eq_true, Bool.not_eq_true'] at skipped
      constructor
      · exact .inl
      · rintro (held | ⟨selected, input, output, -⟩)
        · exact held
        · rcases skipped with (unselected | input') | output'
          · simp_all
          · simp_all
          · simp_all
    · rename_i published
      simp only [Bool.or_eq_true, Bool.not_eq_true', not_or, Bool.not_eq_false] at published
      simp [mem_bufferedKeys, published]) key _ _

theorem mem_insertBuffers_sinkPorts (autoidx : Nat) (sinkPorts bufPorts : Finset PortKey) (key : PortKey) :
    key ∈ (insertBuffers context module sigmap tags autoidx sinkPorts bufPorts).sinkPorts ↔ key ∈ sinkPorts ∨
      ∃ wire ∈ module.wires, ∃ i, DeferredSink context module sigmap tags wire i ∧ key = (module.name, wire.name, i) := by
  refine (mem_foldl_iff (insertWire context module sigmap tags (drivenWireBits context.output module))
    (fun state key => key ∈ state.sinkPorts) _ mem_insertWire_sinkPorts key module.wires
    ⟨module, autoidx, sinkPorts, bufPorts, fun _ => none, []⟩).trans
    (or_congr Iff.rfl (exists_congr fun wire => and_congr_right fun _ => ⟨?_, ?_⟩))
  · rintro ⟨considered, i, mem, rfl, unbuffered, sink, undriven, input⟩
    exact ⟨i, ⟨considered, List.mem_range.mp mem, unbuffered, sink, fun driven => undriven (.inl driven), input,
      Bool.eq_false_iff.mpr fun top => undriven (.inr ⟨input, top⟩)⟩, rfl⟩
  · rintro ⟨i, ⟨considered, lt, unbuffered, sink, undriven, input, top⟩, rfl⟩
    exact ⟨considered, i, List.mem_range.mpr lt, rfl, unbuffered, sink, by simp [undriven, top], input⟩

theorem insertBuffers_bufferedBits_isSome (autoidx : Nat) (sinkPorts bufPorts : Finset PortKey) (b : SigBit) :
    ((insertBuffers context module sigmap tags autoidx sinkPorts bufPorts).bufferedBits b).isSome ↔
      ∃ wire ∈ module.wires, ∃ i, Site context module sigmap tags wire i ∧ sigmap (wire.bit i) = b := by
  refine (mem_foldl_iff (insertWire context module sigmap tags (drivenWireBits context.output module))
    (fun state b => (state.bufferedBits b).isSome) _ insertWire_bufferedBits_isSome b module.wires
    ⟨module, autoidx, sinkPorts, bufPorts, fun _ => none, []⟩).trans
    ((or_iff_right (by simp)).trans (exists_congr fun wire => and_congr_right fun _ => ⟨?_, ?_⟩))
  · rintro ⟨considered, i, mem, rfl, rest⟩
    exact ⟨i, ⟨considered, List.mem_range.mp mem, rest⟩, rfl⟩
  · rintro ⟨i, ⟨considered, lt, rest⟩, rfl⟩
    exact ⟨considered, i, List.mem_range.mpr lt, rfl, rest⟩

theorem mem_insertBuffers_bufPorts (distinct : (module.wires.map Wire.id).Nodup) (autoidx : Nat)
    (sinkPorts bufPorts : Finset PortKey) (key : PortKey) :
    key ∈ (insertBuffers context module sigmap tags autoidx sinkPorts bufPorts).bufPorts ↔ key ∈ bufPorts ∨
      ∃ wire ∈ module.wires, ∃ i, PublishedBuffered context module sigmap tags wire i ∧
        key = (module.name, wire.name, i) := by
  set folded := module.wires.foldl (insertWire context module sigmap tags (drivenWireBits context.output module))
    ⟨module, autoidx, sinkPorts, bufPorts, fun _ => none, []⟩
  have inserted := mem_foldl_iff (insertWire context module sigmap tags (drivenWireBits context.output module))
    (fun (state : InsertState) key => key ∈ state.bufPorts) _ mem_insertWire_bufPorts key
    module.wires ⟨module, autoidx, sinkPorts, bufPorts, fun _ => none, []⟩
  have chained : ∀ b, (folded.bufferedBits b).isSome ↔
      ∃ wire ∈ module.wires, ∃ i, Site context module sigmap tags wire i ∧ sigmap (wire.bit i) = b :=
    insertBuffers_bufferedBits_isSome autoidx sinkPorts bufPorts
  have grown : Grown context module sigmap tags autoidx module.wires
      (insertBuffers context module sigmap tags autoidx sinkPorts bufPorts) :=
    grown_insertBuffers distinct sinkPorts bufPorts
  obtain ⟨added, wires, -, kinds⟩ := grown.wires
  have published : key ∈ (insertBuffers context module sigmap tags autoidx sinkPorts bufPorts).bufPorts ↔
      key ∈ folded.bufPorts ∨ ∃ wire ∈ module.wires, context.selected module.name wire.name = true ∧
        wire.portInput = false ∧ wire.portOutput = true ∧ ∃ i ∈ List.range wire.width,
          key = (module.name, wire.name, i) ∧ (folded.bufferedBits (sigmap (wire.bit i))).isSome := by
    refine (mem_publishOutputs_bufPorts folded key).trans (or_congr Iff.rfl ⟨?_, ?_⟩)
    · rintro ⟨wire, mem, rest⟩
      rcases List.mem_append.mp (wires ▸ mem) with new | old
      · rcases (kinds wire new).2.2 with chain | ⟨-, old, -, -, input, same⟩
        · rw [chain] at rest; exact absurd rest.2.2.1 (by simp [chainWire])
        · rw [same] at rest; exact absurd rest.2.1 (by simp [input])
      · exact ⟨wire, old, rest⟩
    · rintro ⟨wire, mem, rest⟩
      exact ⟨wire, wires ▸ List.mem_append_right _ mem, rest⟩
  rw [published, inserted, or_assoc]
  refine or_congr Iff.rfl ⟨?_, ?_⟩
  · rintro (⟨wire, mem, inout, out, i, range, rfl, left⟩ | ⟨wire, mem, sel, input, out, i, range, rfl, some⟩)
    · exact ⟨wire, mem, i, ⟨out, by simpa [out] using inout, List.mem_range.mp range, left.imp_right .inl⟩, rfl⟩
    · exact ⟨wire, mem, i, ⟨out, input, List.mem_range.mp range, .inr (.inr ⟨sel, (chained _).mp some⟩)⟩, rfl⟩
  · rintro ⟨wire, mem, i, ⟨out, input, lt, reason⟩, rfl⟩
    rcases reason with plain | buffered | ⟨sel, chain⟩
    · exact .inl ⟨wire, mem, by simp [input], out, i, List.mem_range.mpr lt, rfl, .inl plain⟩
    · exact .inl ⟨wire, mem, by simp [input], out, i, List.mem_range.mpr lt, rfl, .inr buffered⟩
    · exact .inr ⟨wire, mem, sel, input, out, i, List.mem_range.mpr lt, rfl, (chained _).mpr chain⟩

/-! ## What a run publishes -/

/-- A run adds to `sink_ports` exactly the clock inputs it defers to the modules above, to
`buf_ports` exactly the output port bits it publishes as buffered, and leaves the inverter
tables. -/
theorem processModule_published {tables : TagTables} {autoidx : Nat} {module : Module}
    {sigmap : SigMap module.connections} (wf : WellFormed module autoidx) {result : Module}
    {tables' : TagTables} {autoidx' : Nat}
    (processed : processModule context tables autoidx module sigmap = some (result, tables', autoidx')) :
    ∃ tags, propagateInverters tables sigmap module
        ⟨collectBits sigmap tables.sinkPorts module, collectBits sigmap tables.bufPorts module⟩ = some tags ∧
      (∀ key, key ∈ tables'.sinkPorts ↔ key ∈ tables.sinkPorts ∨
        ∃ wire ∈ module.wires, ∃ i, DeferredSink context module sigmap tags wire i ∧
          key = (module.name, wire.name, i)) ∧
      (∀ key, key ∈ tables'.bufPorts ↔ key ∈ tables.bufPorts ∨
        ∃ wire ∈ module.wires, ∃ i, PublishedBuffered context module sigmap tags wire i ∧
          key = (module.name, wire.name, i)) ∧
      tables'.invPortsOut = tables.invPortsOut ∧ tables'.invPortsIn = tables.invPortsIn := by
  obtain ⟨tags, bufrMap, reconnected, propagated, -, -, same⟩ := processModule_spec processed
  simp only [Prod.mk.injEq] at same
  obtain ⟨-, rfl, -⟩ := same
  refine ⟨tags, propagated, mem_insertBuffers_sinkPorts _ _ _, fun key => ?_, rfl, rfl⟩
  rw [mem_insertBuffers_bufPorts wf.distinctWires, mem_collectBufBits_bufPorts, or_assoc]
  refine or_congr Iff.rfl ⟨?_, .inr⟩
  rintro (⟨wire, mem, inout, out, i, range, rfl, plain⟩ | published)
  · exact ⟨wire, mem, i, ⟨out, by simpa [out] using inout, List.mem_range.mp range, .inl plain⟩, rfl⟩
  · exact published

theorem passThroughModule_wellFormed : WellFormed passThroughModule 100 :=
  ⟨⟨by decide, by decide, by decide, by decide, by decide⟩, by decide, by decide, by decide⟩

/-- `sub` runs under the tables of `FF` and `DRV`: its clock input `in` goes to `sink_ports`. -/
theorem processModule_published_passThrough :
    WellFormed passThroughModule 100 ∧ ∃ result tables' autoidx',
      processModule bufgContext clockTables 100 passThroughModule (SigMap.ofConnections _) =
        some (result, tables', autoidx') ∧
      ∃ tags, propagateInverters clockTables (SigMap.ofConnections passThroughModule.connections) passThroughModule
          ⟨collectBits (SigMap.ofConnections passThroughModule.connections) clockTables.sinkPorts passThroughModule,
            collectBits (SigMap.ofConnections passThroughModule.connections) clockTables.bufPorts passThroughModule⟩ =
          some tags ∧
        (∀ key, key ∈ tables'.sinkPorts ↔ key ∈ clockTables.sinkPorts ∨ ∃ wire ∈ passThroughModule.wires, ∃ i,
          DeferredSink bufgContext passThroughModule (SigMap.ofConnections passThroughModule.connections) tags wire i ∧
            key = (passThroughModule.name, wire.name, i)) ∧
        (∀ key, key ∈ tables'.bufPorts ↔ key ∈ clockTables.bufPorts ∨ ∃ wire ∈ passThroughModule.wires, ∃ i,
          PublishedBuffered bufgContext passThroughModule (SigMap.ofConnections passThroughModule.connections) tags
            wire i ∧ key = (passThroughModule.name, wire.name, i)) ∧
        tables'.invPortsOut = clockTables.invPortsOut ∧ tables'.invPortsIn = clockTables.invPortsIn :=
  have processed : processModule bufgContext clockTables 100 passThroughModule (SigMap.ofConnections _) =
      some _ := rfl
  ⟨passThroughModule_wellFormed, _, _, _, processed, processModule_published passThroughModule_wellFormed processed⟩

/-- The keys a run publishes for the modules above: every deferred clock input as a sink and
every output port bit it publishes as buffered. -/
theorem processModule_publishes {tables : TagTables} {autoidx : Nat} {module : Module}
    {sigmap : SigMap module.connections} (wf : WellFormed module autoidx) {result : Module}
    {tables' : TagTables} {autoidx' : Nat}
    (processed : processModule context tables autoidx module sigmap = some (result, tables', autoidx')) :
    ∃ tags, propagateInverters tables sigmap module
        ⟨collectBits sigmap tables.sinkPorts module, collectBits sigmap tables.bufPorts module⟩ = some tags ∧
      (∀ wire ∈ module.wires, ∀ i, DeferredSink context module sigmap tags wire i →
        (module.name, wire.name, i) ∈ tables'.sinkPorts) ∧
      ∀ wire ∈ module.wires, ∀ i, PublishedBuffered context module sigmap tags wire i →
        (module.name, wire.name, i) ∈ tables'.bufPorts := by
  obtain ⟨tags, bufrMap, reconnected, propagated, -, -, same⟩ := processModule_spec processed
  simp only [Prod.mk.injEq] at same
  obtain ⟨-, rfl, -⟩ := same
  exact ⟨tags, propagated, fun wire mem i deferred => (mem_insertBuffers_sinkPorts _ _ _ _).mpr
    (.inr ⟨wire, mem, i, deferred, rfl⟩), fun wire mem i published =>
      (mem_insertBuffers_bufPorts wf.distinctWires _ _ _ _).mpr (.inr ⟨wire, mem, i, published, rfl⟩)⟩

/-- No cell a run inserts has a port bit on the net of a cell port bit whose key the tables
record as buffered. -/
theorem processModule_inserted_off_bufPorts {tables : TagTables} {autoidx : Nat} {module : Module}
    {sigmap : SigMap module.connections} (wf : WellFormed module autoidx) {result : Module}
    {tables' : TagTables} {autoidx' : Nat}
    (processed : processModule context tables autoidx module sigmap = some (result, tables', autoidx')) :
    ∀ slot ∈ slots module, slot.key ∈ tables.bufPorts → ∀ cell ∈ result.cells, cell.id ∉ module.cells.map Cell.id →
      ∀ entry ∈ cell.connections, ∀ bit ∈ entry.2, ¬ Connected module.connections bit slot.bit := by
  obtain ⟨tags, propagated, inserted⟩ := processModule_inserted_bits wf processed
  intro slot mem key cell cellMem new entry entryMem bit bitMem joined
  have canonical : sigmap bit = sigmap slot.bit := sigmap.respects _ _ joined
  have buffered : sigmap slot.bit ∈ tags.buf :=
    (propagateInverters_grows propagated).2.1 (mem_collectBits.mpr ⟨slot, mem, key, rfl⟩)
  rcases inserted cell cellMem new entry entryMem bit bitMem with ⟨wire, -, i, ⟨-, -, unbuffered, -⟩, rfl⟩ | young
  · exact unbuffered (by rwa [← canonical, sigmap.map_map] at buffered)
  · have old : Old autoidx (sigmap slot.bit) := wf.old_sigmap sigmap (wf.ports slot mem)
    exact young (by rwa [← canonical, wf.sigmap_new sigmap young] at old)

/-! ## Children publish before their parent -/

section Loop

variable {celltypes : IdString → Option (IdString → Bool)}
  {mkSigMap : (conns : List (SigBit × SigBit)) → SigMap conns} {context : Context}

theorem foldlM_processNamed_tagsGrow {names : List IdString} {state state' : RunState}
    (run : names.foldlM (processNamed celltypes mkSigMap context) state = some state') :
    TagsGrow state.tables state'.tables :=
  foldlM_invariant (P := fun s => TagsGrow state.tables s.tables) names
    (fun _ _ _ _ grows step => grows.trans (processNamed_tagsGrow step)) (TagsGrow.refl _) run

variable {design : Design} {autoidx : Nat}

/-- The queue split at a module: the modules before it are distinct modules of the design,
among them every module it instantiates. -/
theorem queueModules_prefix (acyclic : Acyclic design) {roots : List Module}
    (rootsIn : ∀ root ∈ roots, root ∈ design.modules) {sorted processed : List IdString}
    (queued : queueModules design (design.modules.length + 1) roots = some (sorted, processed))
    {before after : List IdString} {name : IdString} (split : sorted = before ++ name :: after) :
    before.Nodup ∧ name ∉ before ∧ (∀ name' ∈ before, (design.module name').isSome) ∧
      ∀ child, Instantiates design name child → child ∈ before := by
  obtain ⟨sorted', queued', nodup, members, ordered⟩ := queueModules_ordered acyclic roots rootsIn
  obtain ⟨rfl, -⟩ := Prod.mk.inj (Option.some.inj (queued.symm.trans queued'))
  obtain ⟨distinct, -, apart⟩ := List.nodup_append.mp (split ▸ nodup)
  refine ⟨distinct, fun mem => apart mem (List.mem_cons_self _ _), fun name' mem => ?_,
    ordered before name after split⟩
  obtain ⟨_, rootMem, path⟩ := members name' (split ▸ List.mem_append_left _ mem)
  exact isSome_of_reflTransGen (rootsIn _ rootMem) path

/-- A loop over distinct modules of the design, from the start of `execute`, ends with
what each module that is not a blackbox published in its own iteration. -/
theorem foldlM_processNamed_published (ready : WellFormedDesign design autoidx)
    {before after : List IdString} {child : IdString} (distinct : (before ++ child :: after).Nodup)
    (present : ∀ name ∈ before ++ child :: after, (design.module name).isSome) {state : RunState}
    (run : (before ++ child :: after).foldlM (processNamed celltypes mkSigMap context)
      ⟨design, .empty, autoidx⟩ = some state)
    {sub : Module} (found : design.module child = some sub) (kind : sub.blackbox = false) :
    ∃ visited tags, before.foldlM (processNamed celltypes mkSigMap context) ⟨design, .empty, autoidx⟩ =
        some visited ∧
      propagateInverters visited.tables (mkSigMap sub.connections) sub
        ⟨collectBits (mkSigMap sub.connections) visited.tables.sinkPorts sub,
          collectBits (mkSigMap sub.connections) visited.tables.bufPorts sub⟩ = some tags ∧
      (∀ wire ∈ sub.wires, ∀ i, DeferredSink { context with output := visited.design.output celltypes } sub
          (mkSigMap sub.connections) tags wire i → (child, wire.name, i) ∈ state.tables.sinkPorts) ∧
      ∀ wire ∈ sub.wires, ∀ i, PublishedBuffered { context with output := visited.design.output celltypes } sub
          (mkSigMap sub.connections) tags wire i → (child, wire.name, i) ∈ state.tables.bufPorts := by
  obtain ⟨distinct₁, -, apart⟩ := List.nodup_append.mp distinct
  obtain ⟨visited, first, ran⟩ := @foldlM_processNamed_progress celltypes mkSigMap context _ _ ready before
    ⟨design, .empty, autoidx⟩ distinct₁ (fun name mem => present name (List.mem_append_left _ mem))
    (fun _ _ => rfl) ⟨invFromLibrary_empty _, Nat.le_refl _⟩
  simp only [List.foldlM_append, first, List.foldlM_cons, Option.bind_eq_bind, Option.some_bind] at run
  obtain ⟨visited', step, later⟩ := Option.bind_eq_some.mp run
  have same := (ran.frame child fun mem => apart mem (List.mem_cons_self _ _)).trans found
  obtain ⟨module, found', ⟨box, -⟩ | ⟨-, result, processed, -⟩⟩ := processNamed_spec step
  all_goals obtain rfl := Option.some_inj.mp (found'.symm.trans same)
  · exact absurd (kind.symm.trans box) Bool.false_ne_true
  obtain ⟨member, named⟩ := Design.mem_of_module found
  obtain ⟨tags, propagated, sinks, bufs⟩ :=
    processModule_publishes ((ready.modules module member kind).mono ran.inv.counter) processed
  have grows := foldlM_processNamed_tagsGrow later
  exact ⟨visited, tags, first, propagated, fun wire mem i deferred => grows.1 (named ▸ sinks wire mem i deferred),
    fun wire mem i published => grows.2 (named ▸ bufs wire mem i published)⟩

/-- `module_queue` puts every module after the modules it instantiates, so when the loop
reaches a module, every module it instantiates has already published its deferred clock
inputs to `sink_ports` and its buffered outputs to `buf_ports`, under the tags of its own run. -/
theorem moduleLoop_children_publish (ready : WellFormedDesign design autoidx) (acyclic : Acyclic design)
    {roots : List Module} (rootsIn : ∀ root ∈ roots, root ∈ design.modules) {sorted processed : List IdString}
    (queued : queueModules design (design.modules.length + 1) roots = some (sorted, processed))
    {before after : List IdString} {name : IdString} (split : sorted = before ++ name :: after) :
    ∃ state, before.foldlM (processNamed celltypes mkSigMap context) ⟨design, .empty, autoidx⟩ = some state ∧
      ∀ child sub, Instantiates design name child → design.module child = some sub → sub.blackbox = false →
        ∃ before₁ after₁ visited tags, before = before₁ ++ child :: after₁ ∧
          before₁.foldlM (processNamed celltypes mkSigMap context) ⟨design, .empty, autoidx⟩ = some visited ∧
          propagateInverters visited.tables (mkSigMap sub.connections) sub
            ⟨collectBits (mkSigMap sub.connections) visited.tables.sinkPorts sub,
              collectBits (mkSigMap sub.connections) visited.tables.bufPorts sub⟩ = some tags ∧
          (∀ wire ∈ sub.wires, ∀ i, DeferredSink { context with output := visited.design.output celltypes } sub
              (mkSigMap sub.connections) tags wire i → (child, wire.name, i) ∈ state.tables.sinkPorts) ∧
          ∀ wire ∈ sub.wires, ∀ i, PublishedBuffered { context with output := visited.design.output celltypes } sub
              (mkSigMap sub.connections) tags wire i → (child, wire.name, i) ∈ state.tables.bufPorts := by
  obtain ⟨distinct, -, present, below⟩ := queueModules_prefix acyclic rootsIn queued split
  obtain ⟨state, run, -⟩ := @foldlM_processNamed_progress celltypes mkSigMap context _ _ ready before
    ⟨design, .empty, autoidx⟩ distinct present (fun _ _ => rfl) ⟨invFromLibrary_empty _, Nat.le_refl _⟩
  refine ⟨state, run, fun child sub inst found kind => ?_⟩
  obtain ⟨before₁, after₁, rfl⟩ := List.append_of_mem (below child inst)
  obtain ⟨visited, tags, first, propagated, sinks, bufs⟩ :=
    foldlM_processNamed_published ready distinct present run found kind
  exact ⟨before₁, after₁, visited, tags, rfl, first, propagated, sinks, bufs⟩

/-- What `buf_ports` is for, across the hierarchy: when the loop runs a module, no cell it
inserts has a port bit on the net of an instance's output port bit that the instantiated
module buffered and published in its own, earlier, iteration. -/
theorem moduleLoop_no_second_buffer (ready : WellFormedDesign design autoidx) (acyclic : Acyclic design)
    {roots : List Module} (rootsIn : ∀ root ∈ roots, root ∈ design.modules) {sorted processed : List IdString}
    (queued : queueModules design (design.modules.length + 1) roots = some (sorted, processed))
    {before after : List IdString} {name : IdString} (split : sorted = before ++ name :: after) :
    ∃ state, before.foldlM (processNamed celltypes mkSigMap context) ⟨design, .empty, autoidx⟩ = some state ∧
      ∀ state', processNamed celltypes mkSigMap context state name = some state' →
      ∀ module result, design.module name = some module → state'.design.module name = some result →
      ∀ child sub, Instantiates design name child → design.module child = some sub → sub.blackbox = false →
        ∃ before₁ after₁ visited tags, before = before₁ ++ child :: after₁ ∧
          before₁.foldlM (processNamed celltypes mkSigMap context) ⟨design, .empty, autoidx⟩ = some visited ∧
          propagateInverters visited.tables (mkSigMap sub.connections) sub
            ⟨collectBits (mkSigMap sub.connections) visited.tables.sinkPorts sub,
              collectBits (mkSigMap sub.connections) visited.tables.bufPorts sub⟩ = some tags ∧
          ∀ wire ∈ sub.wires, ∀ i, PublishedBuffered { context with output := visited.design.output celltypes } sub
              (mkSigMap sub.connections) tags wire i →
            ∀ slot ∈ slots module, slot.key = (child, wire.name, i) →
              ∀ cell ∈ result.cells, cell.id ∉ module.cells.map Cell.id → ∀ entry ∈ cell.connections,
                ∀ bit ∈ entry.2, ¬ Connected module.connections bit slot.bit := by
  obtain ⟨distinct, fresh, present, below⟩ := queueModules_prefix acyclic rootsIn queued split
  obtain ⟨state, run, ran⟩ := @foldlM_processNamed_progress celltypes mkSigMap context _ _ ready before
    ⟨design, .empty, autoidx⟩ distinct present (fun _ _ => rfl) ⟨invFromLibrary_empty _, Nat.le_refl _⟩
  refine ⟨state, run, fun state' step module result found done child sub inst subFound kind => ?_⟩
  obtain ⟨before₁, after₁, rfl⟩ := List.append_of_mem (below child inst)
  obtain ⟨visited, tags, first, propagated, -, bufs⟩ :=
    foldlM_processNamed_published ready distinct present run subFound kind
  refine ⟨before₁, after₁, visited, tags, rfl, first, propagated, fun wire mem i published slot slotMem key => ?_⟩
  have same : state.design.module name = some module := (ran.frame name fresh).trans found
  obtain ⟨module', found', ⟨-, -, kept⟩ | ⟨kind', updated, processed, replaced⟩⟩ := processNamed_spec step
  all_goals obtain rfl := Option.some_inj.mp (same.symm.trans found')
  · rw [kept] at done
    obtain rfl := Option.some_inj.mp (same.symm.trans done)
    exact fun cell cellMem new => absurd (List.mem_map_of_mem _ cellMem) new
  · obtain ⟨member, named⟩ := Design.mem_of_module found
    have wf := (ready.modules module member kind').mono ran.inv.counter
    have renamed : updated.name = name := (processModule_header wf processed).1.trans named
    have self : state'.design.module name = some updated := by
      rw [replaced, ← renamed]
      exact Design.module_update_self (by rw [renamed, same]; rfl)
    obtain rfl := Option.some_inj.mp (self.symm.trans done)
    exact processModule_inserted_off_bufPorts wf processed slot slotMem (key ▸ bufs wire mem i published)

/-- Module `sub`: `drv` drives the output port `o`, on which a flip-flop clocks. -/
def bufferedOutModule : Module where
  name := .id "\\sub"
  blackbox := false
  top := false
  ports := [.id "\\o"]
  wires := [libraryPort 1 "\\o" false false false]
  cells := [⟨10, .id "\\drv", .id "\\DRV", [(.id "\\O", [.wire 1 0])]⟩,
    ⟨11, .id "\\ff", .id "\\FF", [(.id "\\C", [.wire 1 0])]⟩]
  connections := []

/-- A design where an instance `u` of `sub` drives `y`, on which a flip-flop of `top`
clocks. -/
def bufferedOutDesign : Design where
  modules := [libraryCell "\\BUFG" [libraryPort 1 "\\O" false true false, libraryPort 2 "\\I" true false false],
    libraryCell "\\FF" [libraryPort 1 "\\C" true false true], libraryCell "\\DRV" [libraryPort 1 "\\O" false false false],
    bufferedOutModule,
    ⟨.id "\\top", false, true, [], [⟨1, .id "\\y", 1, 0, false, false, .empty⟩],
      [⟨10, .id "\\u", .id "\\sub", [(.id "\\o", [.wire 1 0])]⟩,
        ⟨11, .id "\\ff", .id "\\FF", [(.id "\\C", [.wire 1 0])]⟩], []⟩]
  names_nodup := by decide

theorem bufferedOutDesign_acyclic : Acyclic bufferedOutDesign :=
  acyclic_of_rank (fun name => if name = .id "\\top" then 2 else if name = .id "\\sub" then 1 else 0) <| by
    rintro parent child ⟨module, found, cell, cellMem, rfl, -⟩
    obtain ⟨mem, rfl⟩ := Design.mem_of_module found
    simp only [bufferedOutDesign, List.mem_cons, List.mem_singleton, List.not_mem_nil, or_false] at mem
    rcases mem with rfl | rfl | rfl | rfl | rfl <;> simp [libraryCell, bufferedOutModule] at cellMem
    all_goals rcases cellMem with rfl | rfl <;> decide

theorem bufferedOutDesign_wellFormed : WellFormedDesign bufferedOutDesign 100 where
  modules := by
    simp only [bufferedOutDesign, List.mem_cons, List.mem_singleton, List.not_mem_nil, or_false]
    rintro module (rfl | rfl | rfl | rfl | rfl) kind
    iterate 3 exact absurd kind (by decide)
    all_goals exact ⟨⟨by decide, by decide, by decide, by decide, by decide⟩, by decide, by decide, by decide⟩
  connects := by unfold ConnectsPorts; decide
  bufrI := fun module mem _ cell cellMem bufr => absurd bufr <|
    (by decide : ∀ module ∈ bufferedOutDesign.modules, ∀ cell ∈ module.cells,
      ¬ (cell.type = .id "\\BUFR" ∨ cell.type = .id "\\BUFIO")) module mem cell cellMem
  portWires := by decide
  wide := by unfold InvNamesWidePort; decide

/-- What `sub` publishes before `top` is reached: the loop over the three blackboxes leaves
tables under which `sub`'s own run buffers its output port `o`, which `top` reads through the
port bit of `u` with key `(sub, o, 0)`. -/
theorem bufferedOutDesign_publishes :
    ∃ visited tags, [.id "\\BUFG", .id "\\FF", .id "\\DRV"].foldlM
        (processNamed (fun _ => none) SigMap.ofConnections bufgContext) ⟨bufferedOutDesign, .empty, 100⟩ =
        some visited ∧
      propagateInverters visited.tables (SigMap.ofConnections bufferedOutModule.connections) bufferedOutModule
        ⟨collectBits (SigMap.ofConnections bufferedOutModule.connections) visited.tables.sinkPorts bufferedOutModule,
          collectBits (SigMap.ofConnections bufferedOutModule.connections) visited.tables.bufPorts
            bufferedOutModule⟩ = some tags ∧
      PublishedBuffered { bufgContext with output := visited.design.output fun _ => none } bufferedOutModule
        (SigMap.ofConnections bufferedOutModule.connections) tags (libraryPort 1 "\\o" false false false) 0 ∧
      ∃ top ∈ bufferedOutDesign.modules, top.name = .id "\\top" ∧
        ∃ slot ∈ slots top, slot.key = (.id "\\sub", .id "\\o", 0) := by
  refine ⟨_, _, rfl, rfl, ⟨rfl, rfl, by decide, .inr (.inr ⟨rfl, libraryPort 1 "\\o" false false false,
    List.mem_singleton_self _, 0, ?_, rfl⟩)⟩, _, List.mem_cons_of_mem _ (List.mem_cons_of_mem _
      (List.mem_cons_of_mem _ (List.mem_cons_of_mem _ (List.mem_singleton_self _)))), rfl, ?_⟩
  · unfold Site Considered; decide
  · exact ⟨_, List.mem_cons_self _ _, rfl⟩

/-- When the loop reaches `top`, its instance `u` of `sub` has published the output `o` that
`sub` buffered. -/
theorem moduleLoop_children_publish_bufferedOut :
    WellFormedDesign bufferedOutDesign 100 ∧ Acyclic bufferedOutDesign ∧
      queueModules bufferedOutDesign (bufferedOutDesign.modules.length + 1) bufferedOutDesign.modules =
        some ([.id "\\BUFG", .id "\\FF", .id "\\DRV", .id "\\sub", .id "\\top"],
          [.id "\\BUFG", .id "\\FF", .id "\\DRV", .id "\\sub", .id "\\top"]) ∧
      (∃ visited tags, [.id "\\BUFG", .id "\\FF", .id "\\DRV"].foldlM
          (processNamed (fun _ => none) SigMap.ofConnections bufgContext) ⟨bufferedOutDesign, .empty, 100⟩ =
          some visited ∧
        propagateInverters visited.tables (SigMap.ofConnections bufferedOutModule.connections) bufferedOutModule
          ⟨collectBits (SigMap.ofConnections bufferedOutModule.connections) visited.tables.sinkPorts bufferedOutModule,
            collectBits (SigMap.ofConnections bufferedOutModule.connections) visited.tables.bufPorts
              bufferedOutModule⟩ = some tags ∧
        PublishedBuffered { bufgContext with output := visited.design.output fun _ => none } bufferedOutModule
          (SigMap.ofConnections bufferedOutModule.connections) tags (libraryPort 1 "\\o" false false false) 0 ∧
        ∃ top ∈ bufferedOutDesign.modules, top.name = .id "\\top" ∧
          ∃ slot ∈ slots top, slot.key = (.id "\\sub", .id "\\o", 0)) ∧
      ∃ state, [.id "\\BUFG", .id "\\FF", .id "\\DRV", .id "\\sub"].foldlM
          (processNamed (fun _ => none) SigMap.ofConnections bufgContext) ⟨bufferedOutDesign, .empty, 100⟩ =
          some state ∧
        ∀ child sub, Instantiates bufferedOutDesign (.id "\\top") child → bufferedOutDesign.module child = some sub →
          sub.blackbox = false → ∃ before₁ after₁ visited tags,
            [.id "\\BUFG", .id "\\FF", .id "\\DRV", .id "\\sub"] = before₁ ++ child :: after₁ ∧
            before₁.foldlM (processNamed (fun _ => none) SigMap.ofConnections bufgContext)
              ⟨bufferedOutDesign, .empty, 100⟩ = some visited ∧
            propagateInverters visited.tables (SigMap.ofConnections sub.connections) sub
              ⟨collectBits (SigMap.ofConnections sub.connections) visited.tables.sinkPorts sub,
                collectBits (SigMap.ofConnections sub.connections) visited.tables.bufPorts sub⟩ = some tags ∧
            (∀ wire ∈ sub.wires, ∀ i, DeferredSink { bufgContext with output := visited.design.output fun _ => none }
                sub (SigMap.ofConnections sub.connections) tags wire i → (child, wire.name, i) ∈ state.tables.sinkPorts) ∧
            ∀ wire ∈ sub.wires, ∀ i, PublishedBuffered { bufgContext with output := visited.design.output fun _ => none }
                sub (SigMap.ofConnections sub.connections) tags wire i → (child, wire.name, i) ∈ state.tables.bufPorts :=
  ⟨bufferedOutDesign_wellFormed, bufferedOutDesign_acyclic, rfl, bufferedOutDesign_publishes,
    moduleLoop_children_publish bufferedOutDesign_wellFormed bufferedOutDesign_acyclic (fun _ mem => mem) rfl rfl⟩

/-- When the loop runs `top`, it inserts nothing on the net `y` of the output `o` that `sub`
buffered. -/
theorem moduleLoop_no_second_buffer_bufferedOut :
    WellFormedDesign bufferedOutDesign 100 ∧ Acyclic bufferedOutDesign ∧
      queueModules bufferedOutDesign (bufferedOutDesign.modules.length + 1) bufferedOutDesign.modules =
        some ([.id "\\BUFG", .id "\\FF", .id "\\DRV", .id "\\sub", .id "\\top"],
          [.id "\\BUFG", .id "\\FF", .id "\\DRV", .id "\\sub", .id "\\top"]) ∧
      (∃ visited tags, [.id "\\BUFG", .id "\\FF", .id "\\DRV"].foldlM
          (processNamed (fun _ => none) SigMap.ofConnections bufgContext) ⟨bufferedOutDesign, .empty, 100⟩ =
          some visited ∧
        propagateInverters visited.tables (SigMap.ofConnections bufferedOutModule.connections) bufferedOutModule
          ⟨collectBits (SigMap.ofConnections bufferedOutModule.connections) visited.tables.sinkPorts bufferedOutModule,
            collectBits (SigMap.ofConnections bufferedOutModule.connections) visited.tables.bufPorts
              bufferedOutModule⟩ = some tags ∧
        PublishedBuffered { bufgContext with output := visited.design.output fun _ => none } bufferedOutModule
          (SigMap.ofConnections bufferedOutModule.connections) tags (libraryPort 1 "\\o" false false false) 0 ∧
        ∃ top ∈ bufferedOutDesign.modules, top.name = .id "\\top" ∧
          ∃ slot ∈ slots top, slot.key = (.id "\\sub", .id "\\o", 0)) ∧
      ∃ state, [.id "\\BUFG", .id "\\FF", .id "\\DRV", .id "\\sub"].foldlM
          (processNamed (fun _ => none) SigMap.ofConnections bufgContext) ⟨bufferedOutDesign, .empty, 100⟩ =
          some state ∧
        ∀ state', processNamed (fun _ => none) SigMap.ofConnections bufgContext state (.id "\\top") = some state' →
        ∀ module result, bufferedOutDesign.module (.id "\\top") = some module →
          state'.design.module (.id "\\top") = some result →
        ∀ child sub, Instantiates bufferedOutDesign (.id "\\top") child → bufferedOutDesign.module child = some sub →
          sub.blackbox = false → ∃ before₁ after₁ visited tags,
            [.id "\\BUFG", .id "\\FF", .id "\\DRV", .id "\\sub"] = before₁ ++ child :: after₁ ∧
            before₁.foldlM (processNamed (fun _ => none) SigMap.ofConnections bufgContext)
              ⟨bufferedOutDesign, .empty, 100⟩ = some visited ∧
            propagateInverters visited.tables (SigMap.ofConnections sub.connections) sub
              ⟨collectBits (SigMap.ofConnections sub.connections) visited.tables.sinkPorts sub,
                collectBits (SigMap.ofConnections sub.connections) visited.tables.bufPorts sub⟩ = some tags ∧
            ∀ wire ∈ sub.wires, ∀ i, PublishedBuffered { bufgContext with output := visited.design.output fun _ => none }
                sub (SigMap.ofConnections sub.connections) tags wire i →
              ∀ slot ∈ slots module, slot.key = (child, wire.name, i) →
                ∀ cell ∈ result.cells, cell.id ∉ module.cells.map Cell.id → ∀ entry ∈ cell.connections,
                  ∀ bit ∈ entry.2, ¬ Connected module.connections bit slot.bit :=
  ⟨bufferedOutDesign_wellFormed, bufferedOutDesign_acyclic, rfl, bufferedOutDesign_publishes,
    moduleLoop_no_second_buffer bufferedOutDesign_wellFormed bufferedOutDesign_acyclic (fun _ mem => mem) rfl rfl⟩

end Loop

end SynthesisRepo.Verified
