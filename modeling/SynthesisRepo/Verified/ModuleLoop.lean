import SynthesisRepo.Verified.InverterLookups

/-! # The module loop of `execute` runs to the end

`execute` orders the modules at and below the selected ones (`module_queue`) and then runs
one iteration per module: a blackbox adds the tags of its ports to the tables, any other
module goes through `processModule` and replaces itself in the design.

The loop reads each module as the design holds it when the loop reaches it.  The queue has
no repeated name, and an iteration replaces only the module it processed, under that
module's name, so every module still ahead in the queue is the one the design came with.
The tables only ever hold entries of blackboxes of the design (`InvFromLibrary`), and the
counter only grows, so each module is still well formed from the counter on when its turn
comes.  No iteration removes a sink or buffered key (`TagsGrow`), so what a blackbox adds
is still there when the modules instantiating it, which `module_queue` puts after it, come.

**Main results**

* `processNamed_progress`: one iteration returns, and does what `Visited` says: it keeps
  `LoopInv`, leaves the module of every other name, and only adds tags.
* `foldlM_processNamed_progress`: the loop over distinct names of modules the design still
  holds as it came returns, and does what `Ran` says.
* `execute_total`: on an acyclic design whose modules and blackboxes are well formed
  (`WellFormedDesign`), with options that parse, `execute` returns a design, in which every
  module not at or below a selected one is as it was.
* `moduleLoop_blackbox_tags_first`: when the loop reaches a module, the tag tables hold the
  `clkbuf_sink` and `clkbuf_driver` port bits of every blackbox the module instantiates, the
  module is as the design came, and no iteration removes a tag (`processNamed_tagsGrow`).
-/

namespace SynthesisRepo.Verified

open Rtlil Clkbufmap Relation

/-- The blackboxes of a design, by name: the library the inverter tables come from. -/
def blackboxes (design : Design) (name : IdString) : Option Module :=
  (design.module name).filter (·.blackbox)

/-- What the pass needs of a design: every module that is not a blackbox is well formed from
`autoidx` on, connects the ports of each blackbox type at their widths, and gives every
`BUFR` and `BUFIO` a one-bit `I`; every port of a blackbox has a wire, and every
`clkbuf_inv` value of a blackbox names a port of it at least as wide. -/
structure WellFormedDesign (design : Design) (autoidx : Nat) : Prop where
  modules : ∀ module ∈ design.modules, module.blackbox = false → WellFormed module autoidx
  connects : ∀ module ∈ design.modules, module.blackbox = false → ∀ cell ∈ module.cells,
    ∀ lib ∈ design.modules, lib.blackbox = true → lib.name = cell.type → ConnectsPorts lib cell
  bufrI : ∀ module ∈ design.modules, module.blackbox = false → ∀ cell ∈ module.cells,
    cell.type = .id "\\BUFR" ∨ cell.type = .id "\\BUFIO" → ∃ bit, cell.getPort (.id "\\I") = some [bit]
  portWires : ∀ lib ∈ design.modules, lib.blackbox = true → ∀ port ∈ lib.ports, (lib.wire port).isSome
  wide : ∀ lib ∈ design.modules, lib.blackbox = true → InvNamesWidePort lib

/-! ## Well-formedness survives a larger counter -/

theorem Old.mono {start start' : Nat} (le : start ≤ start') : ∀ {bit : SigBit}, Old start bit → Old start' bit
  | .wire _ _, lt => Nat.lt_of_lt_of_le lt le
  | .const _, _ => trivial

theorem NamedBelow.mono {start start' : Nat} (le : start ≤ start') :
    ∀ {name : IdString}, NamedBelow start name → NamedBelow start' name
  | .auto _, lt => Nat.lt_of_lt_of_le lt le
  | .id _, _ => trivial

theorem WellFormed.mono {module : Module} {start start' : Nat} (wf : WellFormed module start)
    (le : start ≤ start') : WellFormed module start' :=
  { wf with
    wires := fun wire mem => Nat.lt_of_lt_of_le (wf.wires wire mem) le
    cells := fun cell mem => Nat.lt_of_lt_of_le (wf.cells cell mem) le
    ports := fun slot mem => (wf.ports slot mem).mono le
    connections := fun entry mem => ⟨(wf.connections entry mem).1.mono le, (wf.connections entry mem).2.mono le⟩
    names := fun wire mem => (wf.names wire mem).mono le }

/-! ## The inverter design

The design of `runBufg_fails_on_malformed_clkbuf_inv` with the `clkbuf_inv` value naming the
inverter's input meets every condition. -/

theorem inverterDesign_acyclic : Acyclic (inverterDesign "I") :=
  acyclic_of_rank (fun name => if name = .id "\\top" then 1 else 0) <| by
    rintro parent child ⟨module, found, cell, cellMem, rfl, -⟩
    obtain ⟨mem, rfl⟩ := Design.mem_of_module found
    simp only [inverterDesign, List.mem_cons, List.mem_singleton, List.not_mem_nil, or_false] at mem
    rcases mem with rfl | rfl | rfl | rfl <;> simp [libraryCell, inverterTopModule] at cellMem
    rcases cellMem with rfl | rfl | rfl <;> decide

theorem inverterDesign_wellFormed : WellFormedDesign (inverterDesign "I") 100 where
  modules := by
    simp only [inverterDesign, List.mem_cons, List.mem_singleton, List.not_mem_nil, or_false]
    rintro module (rfl | rfl | rfl | rfl) kind
    all_goals first | exact absurd kind (by decide) | exact inverterTopModule_wellFormed
  connects := by unfold ConnectsPorts; decide
  bufrI := fun module mem _ cell cellMem bufr => absurd bufr <|
    (by decide : ∀ module ∈ (inverterDesign "I").modules, ∀ cell ∈ module.cells,
      ¬ (cell.type = .id "\\BUFR" ∨ cell.type = .id "\\BUFIO")) module mem cell cellMem
  portWires := by decide
  wide := by unfold InvNamesWidePort; decide

/-! ## The tag tables only grow -/

/-- `tables'` holds every sink key and every buffered key of `tables`. -/
def TagsGrow (tables tables' : TagTables) : Prop :=
  tables.sinkPorts ⊆ tables'.sinkPorts ∧ tables.bufPorts ⊆ tables'.bufPorts

theorem TagsGrow.refl (tables : TagTables) : TagsGrow tables tables := ⟨subset_rfl, subset_rfl⟩

theorem TagsGrow.trans {tables tables' tables'' : TagTables} (first : TagsGrow tables tables')
    (second : TagsGrow tables' tables'') : TagsGrow tables tables'' :=
  ⟨first.1.trans second.1, first.2.trans second.2⟩

/-- The tables hold the keys of every `clkbuf_sink` port of the blackbox `lib` as sinks and
of every `clkbuf_driver` port as buffered. -/
def HoldsTags (lib : Module) (tables : TagTables) : Prop :=
  ∀ port ∈ lib.ports, ∀ wire ∈ lib.wire port,
    (wire.attributes.clkbufSink = true → portKeys lib.name wire.name wire.width ⊆ tables.sinkPorts) ∧
    (wire.attributes.clkbufDriver = true → portKeys lib.name wire.name wire.width ⊆ tables.bufPorts)

theorem HoldsTags.mono {lib : Module} {tables tables' : TagTables} (holds : HoldsTags lib tables)
    (grows : TagsGrow tables tables') : HoldsTags lib tables' := fun port mem wire named =>
  ⟨fun sink => ((holds port mem wire named).1 sink).trans grows.1,
    fun driver => ((holds port mem wire named).2 driver).trans grows.2⟩

@[simp] theorem blackboxPortTags_sinkPorts (lib : Module) (wire : Wire) (tables : TagTables) :
    (blackboxPortTags lib wire tables).sinkPorts = if wire.attributes.clkbufSink
      then tables.sinkPorts ∪ portKeys lib.name wire.name wire.width else tables.sinkPorts := by
  unfold blackboxPortTags; cases wire.attributes.clkbufInv <;> rfl

@[simp] theorem blackboxPortTags_bufPorts (lib : Module) (wire : Wire) (tables : TagTables) :
    (blackboxPortTags lib wire tables).bufPorts = if wire.attributes.clkbufDriver
      then tables.bufPorts ∪ portKeys lib.name wire.name wire.width else tables.bufPorts := by
  unfold blackboxPortTags; cases wire.attributes.clkbufInv <;> rfl

/-- Lines 143-148 add the keys of a `clkbuf_sink` or `clkbuf_driver` port and keep every tag. -/
theorem blackboxPortTags_tags (lib : Module) (wire : Wire) (tables : TagTables) :
    let tables' := blackboxPortTags lib wire tables
    TagsGrow tables tables' ∧
      (wire.attributes.clkbufSink = true → portKeys lib.name wire.name wire.width ⊆ tables'.sinkPorts) ∧
      (wire.attributes.clkbufDriver = true → portKeys lib.name wire.name wire.width ⊆ tables'.bufPorts) := by
  simp only [TagsGrow, blackboxPortTags_sinkPorts, blackboxPortTags_bufPorts]
  split_ifs <;> simp_all

/-- Lines 140-158 keep every tag and add those of every port of the blackbox. -/
theorem blackboxTags_tags {lib : Module} {tables tables' : TagTables}
    (tagged : blackboxTags lib tables = some tables') : TagsGrow tables tables' ∧ HoldsTags lib tables' := by
  suffices ∀ (ports : List IdString) (tables : TagTables), ports.foldlM (fun tables port =>
      (lib.wire port).map fun wire => blackboxPortTags lib wire tables) tables = some tables' →
      TagsGrow tables tables' ∧ ∀ port ∈ ports, ∀ wire ∈ lib.wire port,
        (wire.attributes.clkbufSink = true → portKeys lib.name wire.name wire.width ⊆ tables'.sinkPorts) ∧
        (wire.attributes.clkbufDriver = true → portKeys lib.name wire.name wire.width ⊆ tables'.bufPorts) from
    this lib.ports tables tagged
  intro ports
  induction ports with
  | nil => exact fun tables done => ⟨Option.some_inj.mp done ▸ TagsGrow.refl _, fun _ mem => absurd mem (List.not_mem_nil _)⟩
  | cons port ports ih =>
    intro tables done
    obtain ⟨tables₁, first, rest⟩ := Option.bind_eq_some.mp done
    obtain ⟨wire, named, rfl⟩ := Option.map_eq_some'.mp first
    obtain ⟨grows, held⟩ := ih _ rest
    obtain ⟨grows₁, sink, driver⟩ := blackboxPortTags_tags lib wire tables
    refine ⟨grows₁.trans grows, fun port' mem wire' named' => ?_⟩
    rcases List.mem_cons.mp mem with rfl | mem
    · obtain rfl : wire' = wire := Option.some_inj.mp (named'.symm.trans named)
      exact ⟨fun hit => (sink hit).trans grows.1, fun hit => (driver hit).trans grows.2⟩
    · exact held port' mem wire' named'

section Insertion

variable {context : Context} {module : Module} {sigmap : SigBit → SigBit} {tags : InvState}
  {driven : Finset SigBit}

@[simp] theorem insertChain_sinkPorts (wire : Wire) (bit : SigBit) (state : InsertState) :
    (insertChain context module wire bit state).sinkPorts = state.sinkPorts := by
  unfold insertChain
  cases useBuffer context module wire <;> cases usePad context module wire <;> rfl

@[simp] theorem insertChain_bufPorts (wire : Wire) (bit : SigBit) (state : InsertState) :
    (insertChain context module wire bit state).bufPorts = state.bufPorts := by
  unfold insertChain
  cases useBuffer context module wire <;> cases usePad context module wire <;> rfl

/-- Lines 290-335 only add sink and buffered keys. -/
theorem insertBit_widens (wire : Wire) (acc : InsertState × Bool) (i : Nat) :
    let state := (insertBit context module sigmap tags driven wire acc i).1
    acc.1.sinkPorts ⊆ state.sinkPorts ∧ acc.1.bufPorts ⊆ state.bufPorts := by
  obtain ⟨state, inputBits⟩ := acc
  simp only [insertBit]
  split_ifs <;> simp [Finset.subset_insert]

/-- Lines 269-355 only add sink and buffered keys. -/
theorem insertWire_widens (state : InsertState) (wire : Wire) :
    let state' := insertWire context module sigmap tags driven state wire
    state.sinkPorts ⊆ state'.sinkPorts ∧ state.bufPorts ⊆ state'.bufPorts := by
  have bits := List.foldlRecOn (motive := fun acc : InsertState × Bool =>
      state.sinkPorts ⊆ acc.1.sinkPorts ∧ state.bufPorts ⊆ acc.1.bufPorts) (List.range wire.width)
    (insertBit context module sigmap tags driven wire) (state, false) ⟨subset_rfl, subset_rfl⟩
    fun acc held i _ => ⟨held.1.trans (insertBit_widens wire acc i).1, held.2.trans (insertBit_widens wire acc i).2⟩
  unfold insertWire
  split_ifs
  · exact ⟨subset_rfl, subset_rfl⟩
  · exact ⟨subset_rfl, Finset.subset_union_left⟩
  · exact ⟨subset_rfl, subset_rfl⟩
  · beta_reduce at bits
    generalize (List.range wire.width).foldl (insertBit context module sigmap tags driven wire) (state, false) = acc
      at bits ⊢
    obtain ⟨state', inputBits⟩ := acc
    cases inputBits <;> exact bits

/-- Lines 357-368 only add buffered keys. -/
theorem publishOutputs_widens (state : InsertState) :
    let state' := publishOutputs context module sigmap state
    state.sinkPorts ⊆ state'.sinkPorts ∧ state.bufPorts ⊆ state'.bufPorts :=
  ⟨subset_rfl, List.foldlRecOn (motive := fun keys : Finset PortKey => state.bufPorts ⊆ keys) _ _ _ subset_rfl
    fun keys held wire _ => held.trans (by split_ifs <;> simp)⟩

/-- The insertion and the publication only add sink and buffered keys. -/
theorem insertBuffers_widens (autoidx : Nat) (sinkPorts bufPorts : Finset PortKey) :
    let published := insertBuffers context module sigmap tags autoidx sinkPorts bufPorts
    sinkPorts ⊆ published.sinkPorts ∧ bufPorts ⊆ published.bufPorts := by
  have inserted := List.foldlRecOn (motive := fun state : InsertState =>
      sinkPorts ⊆ state.sinkPorts ∧ bufPorts ⊆ state.bufPorts) module.wires
    (insertWire context module sigmap tags (drivenWireBits context.output module))
    ⟨module, autoidx, sinkPorts, bufPorts, fun _ => none, []⟩ ⟨subset_rfl, subset_rfl⟩
    fun state held wire _ => ⟨held.1.trans (insertWire_widens state wire).1,
      held.2.trans (insertWire_widens state wire).2⟩
  exact ⟨inserted.1.trans (publishOutputs_widens _).1, inserted.2.trans (publishOutputs_widens _).2⟩

end Insertion

/-- The pass on an ordinary module keeps every sink and buffered key of the tables. -/
theorem processModule_tagsGrow {context : Context} {tables tables' : TagTables} {autoidx autoidx' : Nat}
    {module result : Module} {sigmap : SigMap module.connections}
    (processed : processModule context tables autoidx module sigmap = some (result, tables', autoidx')) :
    TagsGrow tables tables' := by
  obtain ⟨tags, bufrMap, reconnected, -, -, -, same⟩ := processModule_spec processed
  simp only [Prod.mk.injEq] at same
  obtain ⟨-, rfl, -⟩ := same
  have collected : tables.bufPorts ⊆ (collectBufBits context module sigmap module.wires tables.bufPorts).2 :=
    List.foldlRecOn (motive := fun acc : List SigBit × Finset PortKey => tables.bufPorts ⊆ acc.2) module.wires
      (collectBufBit context module sigmap) ([], tables.bufPorts) subset_rfl fun acc held wire _ =>
        held.trans (by unfold collectBufBit; split_ifs <;> simp)
  have inserted := @insertBuffers_widens context module sigmap tags autoidx tables.sinkPorts
    (collectBufBits context module sigmap module.wires tables.bufPorts).2
  exact ⟨inserted.1, collected.trans inserted.2⟩

/-! ## One iteration -/

/-- Lines 140-158 return on a blackbox whose every port has a wire. -/
theorem blackboxTags_progress {lib : Module} (wired : ∀ port ∈ lib.ports, (lib.wire port).isSome)
    (tables : TagTables) : ∃ tables', blackboxTags lib tables = some tables' :=
  (@foldlM_progress _ _ (fun _ => True) _ lib.ports (fun port mem _ _ =>
      let ⟨_, named⟩ := Option.isSome_iff_exists.mp (wired port mem)
      ⟨_, by rw [named]; rfl, trivial⟩) tables trivial).imp fun _ done => done.1

section Invariants

variable (design : Design) (autoidx : Nat)

/-- What the loop keeps: tables whose inverter entries come from blackboxes of the design,
and the counter at or above `autoidx`. -/
structure LoopInv (state : RunState) : Prop where
  fromLib : InvFromLibrary (blackboxes design) state.tables
  counter : autoidx ≤ state.autoidx

/-- What one iteration on the module named `name` does: it keeps `LoopInv`, leaves the
module of every other name, keeps every tag, and adds those of a blackbox. -/
structure Visited (state state' : RunState) (name : IdString) : Prop where
  inv : LoopInv design autoidx state'
  frame : ∀ other, other ≠ name → state'.design.module other = state.design.module other
  grows : TagsGrow state.tables state'.tables
  tagged : ∀ lib, state.design.module name = some lib → lib.blackbox = true → HoldsTags lib state'.tables

/-- What the loop over `names` does: it keeps `LoopInv`, leaves the module of every other
name, keeps every tag, and holds those of every blackbox of the design it visits. -/
structure Ran (state final : RunState) (names : List IdString) : Prop where
  inv : LoopInv design autoidx final
  frame : ∀ name ∉ names, final.design.module name = state.design.module name
  grows : TagsGrow state.tables final.tables
  tagged : ∀ name ∈ names, ∀ lib, design.module name = some lib → lib.blackbox = true →
    HoldsTags lib final.tables

end Invariants

section Loop

variable {celltypes : IdString → Option (IdString → Bool)}
  {mkSigMap : (conns : List (SigBit × SigBit)) → SigMap conns} {context : Context}
  {design : Design} {autoidx : Nat}

/-- One iteration, on a module that the design still holds as it came, returns. -/
theorem processNamed_progress (ready : WellFormedDesign design autoidx) {state : RunState}
    (holds : LoopInv design autoidx state) {name : IdString} {module : Module}
    (found : design.module name = some module) (same : state.design.module name = some module) :
    ∃ state', processNamed celltypes mkSigMap context state name = some state' ∧
      Visited design autoidx state state' name := by
  obtain ⟨mem, rfl⟩ := Design.mem_of_module found
  cases kind : module.blackbox with
  | true =>
    obtain ⟨tables, tagged⟩ := blackboxTags_progress (ready.portWires module mem kind) state.tables
    have library : blackboxes design module.name = some module := Option.filter_eq_some.mpr ⟨found, kind⟩
    refine ⟨{ state with tables }, ?_, ⟨holds.fromLib.blackboxTags library tagged, holds.counter⟩,
      fun _ _ => rfl, (blackboxTags_tags tagged).1, fun lib same' _ => ?_⟩
    · simp only [processNamed, same, kind, tagged, Option.bind_eq_bind, Option.some_bind, if_true]
      rfl
    · obtain rfl : lib = module := Option.some_inj.mp (same'.symm.trans same)
      exact (blackboxTags_tags tagged).2
  | false =>
    have wf := (ready.modules module mem kind).mono holds.counter
    obtain ⟨⟨result, tables, autoidx'⟩, processed⟩ : ∃ run, processModule
        { context with output := state.design.output celltypes } state.tables state.autoidx module
        (mkSigMap module.connections) = some run :=
      processModule_total wf (lookupsSucceed_of_library holds.fromLib
        (fun _ lib found =>
          let ⟨found, box⟩ := Option.filter_eq_some.mp found
          ready.wide lib (Design.mem_of_module found).1 box)
        (fun cell cellMem lib found =>
          let ⟨found, box⟩ := Option.filter_eq_some.mp found
          let ⟨libMem, named⟩ := Design.mem_of_module found
          ready.connects module mem kind cell cellMem lib libMem box named))
        (ready.bufrI module mem kind)
    obtain ⟨named, grows⟩ := processModule_header wf processed
    refine ⟨⟨state.design.update result, tables, autoidx'⟩, ?_,
      ⟨holds.fromLib.processModule processed, holds.counter.trans grows⟩,
      fun other apart => Design.module_update_ne (named ▸ Ne.symm apart), processModule_tagsGrow processed,
      fun lib same' box => ?_⟩
    · simp only [processNamed, same, kind, processed, Option.bind_eq_bind, Option.some_bind]
      rfl
    · obtain rfl : lib = module := Option.some_inj.mp (same'.symm.trans same)
      exact absurd box (by simp [kind])

/-- The loop over distinct names of modules that the design still holds as it came returns. -/
theorem foldlM_processNamed_progress (ready : WellFormedDesign design autoidx) :
    ∀ (names : List IdString) (state : RunState), names.Nodup →
      (∀ name ∈ names, (design.module name).isSome) →
      (∀ name ∈ names, state.design.module name = design.module name) → LoopInv design autoidx state →
      ∃ final, names.foldlM (processNamed celltypes mkSigMap context) state = some final ∧
        Ran design autoidx state final names
  | [], state, _, _, _, holds =>
    ⟨state, rfl, holds, fun _ _ => rfl, TagsGrow.refl _, fun _ mem => absurd mem (List.not_mem_nil _)⟩
  | name :: names, state, nodup, present, pending, holds => by
    obtain ⟨fresh, nodup⟩ := List.nodup_cons.mp nodup
    obtain ⟨module, found⟩ := Option.isSome_iff_exists.mp (present name (List.mem_cons_self _ _))
    have same := (pending name (List.mem_cons_self _ _)).trans found
    obtain ⟨state', step, visited⟩ := @processNamed_progress celltypes mkSigMap context _ _ ready _
      holds _ _ found same
    obtain ⟨final, rest, ran⟩ := foldlM_processNamed_progress ready names state' nodup
      (fun other mem => present other (List.mem_cons_of_mem _ mem))
      (fun other mem => (visited.frame other fun same => fresh (same ▸ mem)).trans
        (pending other (List.mem_cons_of_mem _ mem)))
      visited.inv
    refine ⟨final, by simpa only [List.foldlM_cons, step, Option.bind_eq_bind, Option.some_bind],
      ran.inv, fun other outside => ?_, visited.grows.trans ran.grows, fun other mem lib found' box => ?_⟩
    · have ⟨apart, later⟩ := not_or.mp (List.mem_cons.not.mp outside)
      exact (ran.frame other later).trans (visited.frame other apart)
    · rcases List.mem_cons.mp mem with rfl | later
      · exact (visited.tagged lib (same.trans (found.symm.trans found')) box).mono ran.grows
      · exact ran.tagged other later lib found' box

/-- On an acyclic design whose modules and blackboxes are well formed, with options that
parse, `execute` returns a design; every module not at or below a selected module is as it
was. -/
theorem execute_total {selectedModule : IdString → Bool} {selected : IdString → IdString → Bool}
    {hash : SigBit → Nat} {args : List String} {options : Options}
    (ready : WellFormedDesign design autoidx) (acyclic : Acyclic design)
    (parsed : executeOptions args = .ok options) :
    ∃ result, execute celltypes selectedModule selected hash mkSigMap args design autoidx =
        .ok (some result) ∧
      ∀ name, (¬ ∃ root ∈ design.modules, selectedModule root.name = true ∧
          ReflTransGen (Instantiates design) root.name name) →
        result.1.module name = design.module name := by
  obtain ⟨sorted, queued, nodup, members, -⟩ := queueModules_ordered acyclic
    (design.modules.filter fun module => selectedModule module.name) fun _ mem => (List.mem_filter.mp mem).1
  have reached : ∀ name ∈ sorted, ∃ root ∈ design.modules, selectedModule root.name = true ∧
      ReflTransGen (Instantiates design) root.name name := fun name mem =>
    let ⟨root, rootMem, path⟩ := members name mem
    ⟨root, (List.mem_filter.mp rootMem).1, by simpa using (List.mem_filter.mp rootMem).2, path⟩
  obtain ⟨final, run, ran⟩ := @foldlM_processNamed_progress celltypes mkSigMap
    ⟨options, bufferInputs design options, design.output celltypes, selected, hash⟩ _ _ ready sorted
    ⟨design, .empty, autoidx⟩ nodup
    (fun name mem => let ⟨_, rootMem, _, path⟩ := reached name mem; isSome_of_reflTransGen rootMem path)
    (fun _ _ => rfl) ⟨invFromLibrary_empty _, Nat.le_refl _⟩
  refine ⟨(final.design, final.autoidx), ?_, fun name outside => ran.frame name fun mem => outside (reached name mem)⟩
  simp only [execute, parsed]
  refine congrArg Except.ok ?_
  simp only [queued, run, Option.bind_eq_bind, Option.some_bind]
  rfl

/-- `clkbufmap -buf BUFG O:I` on the inverter design, whose `clkbuf_inv` value names the
inverter's input. -/
theorem execute_total_inverter :
    (∃ options, executeOptions ["clkbufmap", "-buf", "BUFG", "O:I"] = .ok options) ∧
      WellFormedDesign (inverterDesign "I") 100 ∧ Acyclic (inverterDesign "I") ∧
      ∃ result, execute (fun _ => none) (fun _ => true) (fun _ _ => true) sigBitHash SigMap.ofConnections
          ["clkbufmap", "-buf", "BUFG", "O:I"] (inverterDesign "I") 100 = .ok (some result) ∧
        ∀ name, (¬ ∃ root ∈ (inverterDesign "I").modules, true = true ∧
            ReflTransGen (Instantiates (inverterDesign "I")) root.name name) →
          result.1.module name = (inverterDesign "I").module name :=
  ⟨⟨_, rfl⟩, inverterDesign_wellFormed, inverterDesign_acyclic,
    execute_total inverterDesign_wellFormed inverterDesign_acyclic rfl⟩

/-- What one iteration of the loop ran: lines 140-158 on a blackbox, or `processModule` on
the module as the design held it, whose result replaces it. -/
theorem processNamed_spec {state state' : RunState} {name : IdString}
    (step : processNamed celltypes mkSigMap context state name = some state') :
    ∃ module, state.design.module name = some module ∧
      (module.blackbox = true ∧ blackboxTags module state.tables = some state'.tables ∧
        state' = { state with tables := state'.tables } ∨
      module.blackbox = false ∧ ∃ result, processModule { context with output := state.design.output celltypes }
          state.tables state.autoidx module (mkSigMap module.connections) = some (result, state'.tables, state'.autoidx) ∧
        state'.design = state.design.update result) := by
  obtain ⟨module, found, rest⟩ := Option.bind_eq_some.mp step
  refine ⟨module, found, ?_⟩
  cases kind : module.blackbox
  · simp only [kind, Bool.false_eq_true, if_false] at rest
    obtain ⟨⟨result, tables, autoidx⟩, processed, done⟩ := Option.bind_eq_some.mp rest
    obtain rfl := Option.some_inj.mp done
    exact .inr ⟨rfl, result, processed, rfl⟩
  · simp only [kind, if_true] at rest
    obtain ⟨tables, tagged, done⟩ := Option.bind_eq_some.mp rest
    obtain rfl := Option.some_inj.mp done
    exact .inl ⟨rfl, tagged, rfl⟩

/-- No iteration removes a sink or buffered key. -/
theorem processNamed_tagsGrow {state state' : RunState} {name : IdString}
    (step : processNamed celltypes mkSigMap context state name = some state') : TagsGrow state.tables state'.tables := by
  obtain ⟨module, -, ⟨-, tagged, -⟩ | ⟨-, result, processed, -⟩⟩ := processNamed_spec step
  · exact (blackboxTags_tags tagged).1
  · exact processModule_tagsGrow processed

/-- `module_queue` puts every module after the modules it instantiates, so when the loop
reaches a module the tag tables hold the `clkbuf_sink` and `clkbuf_driver` port bits of every
blackbox it instantiates; the loop reads the module as the design came; and no iteration, on a
blackbox or through `processModule`, removes a sink or buffered key. -/
theorem moduleLoop_blackbox_tags_first (ready : WellFormedDesign design autoidx) (acyclic : Acyclic design)
    {roots : List Module} (rootsIn : ∀ root ∈ roots, root ∈ design.modules) {sorted processed : List IdString}
    (queued : queueModules design (design.modules.length + 1) roots = some (sorted, processed))
    {before after : List IdString} {name : IdString} (split : sorted = before ++ name :: after) :
    ∃ state, before.foldlM (processNamed celltypes mkSigMap context) ⟨design, .empty, autoidx⟩ = some state ∧
      sorted.foldlM (processNamed celltypes mkSigMap context) ⟨design, .empty, autoidx⟩ =
        (processNamed celltypes mkSigMap context state name).bind
          (after.foldlM (processNamed celltypes mkSigMap context)) ∧
      state.design.module name = design.module name ∧
      (∀ child lib, Instantiates design name child → design.module child = some lib → lib.blackbox = true →
        HoldsTags lib state.tables) ∧
      ∀ (state state' : RunState) name', processNamed celltypes mkSigMap context state name' = some state' →
        TagsGrow state.tables state'.tables := by
  obtain ⟨sorted', queued', nodup, members, ordered⟩ := queueModules_ordered acyclic roots rootsIn
  obtain ⟨rfl, -⟩ := Prod.mk.inj (Option.some.inj (queued.symm.trans queued'))
  obtain ⟨distinct, -, disjoint⟩ := List.nodup_append.mp (split ▸ nodup)
  obtain ⟨state, run, ran⟩ := @foldlM_processNamed_progress celltypes mkSigMap context _ _ ready before
    ⟨design, .empty, autoidx⟩ distinct
    (fun name' mem =>
      let ⟨_, rootMem, path⟩ := members name' (split ▸ List.mem_append_left _ mem)
      isSome_of_reflTransGen (rootsIn _ rootMem) path)
    (fun _ _ => rfl) ⟨invFromLibrary_empty _, Nat.le_refl _⟩
  refine ⟨state, run, ?_, ran.frame name fun mem => disjoint mem (List.mem_cons_self _ _),
    fun child lib inst found box => ran.tagged child (ordered before name after split child inst) lib found box,
    fun _ _ _ step => processNamed_tagsGrow step⟩
  simp only [split, List.foldlM_append, List.foldlM_cons, run, Option.bind_eq_bind, Option.some_bind]

/-- Before `top`, the loop visits the three blackboxes `INV`, `FF` and `DRV`. -/
theorem moduleLoop_blackbox_tags_first_inverter :
    WellFormedDesign (inverterDesign "I") 100 ∧ Acyclic (inverterDesign "I") ∧
      queueModules (inverterDesign "I") ((inverterDesign "I").modules.length + 1) (inverterDesign "I").modules =
        some ([.id "\\INV", .id "\\FF", .id "\\DRV", .id "\\top"], [.id "\\INV", .id "\\FF", .id "\\DRV", .id "\\top"]) ∧
      ∃ state, [.id "\\INV", .id "\\FF", .id "\\DRV"].foldlM
          (processNamed (fun _ => none) SigMap.ofConnections bufgContext) ⟨inverterDesign "I", .empty, 100⟩ =
          some state ∧
        [.id "\\INV", .id "\\FF", .id "\\DRV", .id "\\top"].foldlM
            (processNamed (fun _ => none) SigMap.ofConnections bufgContext) ⟨inverterDesign "I", .empty, 100⟩ =
          (processNamed (fun _ => none) SigMap.ofConnections bufgContext state (.id "\\top")).bind
            ([].foldlM (processNamed (fun _ => none) SigMap.ofConnections bufgContext)) ∧
        state.design.module (.id "\\top") = (inverterDesign "I").module (.id "\\top") ∧
        (∀ child lib, Instantiates (inverterDesign "I") (.id "\\top") child →
          (inverterDesign "I").module child = some lib → lib.blackbox = true → HoldsTags lib state.tables) ∧
        ∀ (state state' : RunState) name, processNamed (fun _ => none) SigMap.ofConnections bufgContext state name =
          some state' → TagsGrow state.tables state'.tables :=
  ⟨inverterDesign_wellFormed, inverterDesign_acyclic, rfl,
    moduleLoop_blackbox_tags_first inverterDesign_wellFormed inverterDesign_acyclic (fun _ mem => mem) rfl rfl⟩

end Loop

end SynthesisRepo.Verified
