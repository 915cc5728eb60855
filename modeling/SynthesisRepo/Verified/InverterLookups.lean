import SynthesisRepo.Verified.ModulePass
import SynthesisRepo.Verified.ModuleQueue

/-! # Port lookups of the inverter loop

The tables of lines 149-156 pair every bit `i` of a port carrying `clkbuf_inv` with bit `i`
of the port its value names, without checking that the blackbox has that port or that it
is as wide.  The loop of lines 181-210 then calls `getPort` on the paired port of every
cell of that type whose output is a sink.

Every other lookup of the pass on a module is safe on well-formed input: the reconnection
finds every cell and port it reads (`reconnectDrivers_progress`), and the index of `BUFR`
and `BUFIO` cells needs only their `I` ports to be one bit wide.

**Main results**

* `runBufg_fails_on_malformed_clkbuf_inv`: with a value that names no port of the
  inverter, the pass stops at that lookup although every blackbox cell connects its ports
  at their declared widths and no cell is a `BUFR` or `BUFIO`; with the value naming the
  inverter's input it completes.
* `processModule_total`: the pass on a well-formed module returns whenever the inverter
  loop's lookups succeed and every `BUFR` and `BUFIO` connects `I` with one bit.
* `processModule_total_of_library`: the lookups succeed, and so the pass returns, when
  every `clkbuf_inv` value of the library names a port of the same blackbox at least as
  wide and every cell connects the ports of its blackbox type at their widths.
-/

namespace SynthesisRepo.Verified

open Rtlil Clkbufmap

/-! ## A `clkbuf_inv` value naming no port -/

/-- Module `top`: `drv` drives `n`, an inverter reads `n` and drives `s`, and a flip-flop
clocks on `s`. -/
def inverterTopModule : Module where
  name := .id "\\top"
  blackbox := false
  top := true
  ports := []
  wires := [⟨1, .id "\\n", 1, 0, false, false, .empty⟩, ⟨2, .id "\\s", 1, 0, false, false, .empty⟩]
  cells := [⟨10, .id "\\drv", .id "\\DRV", [(.id "\\O", [.wire 1 0])]⟩,
    ⟨11, .id "\\inv", .id "\\INV", [(.id "\\I", [.wire 1 0]), (.id "\\O", [.wire 2 0])]⟩,
    ⟨12, .id "\\ff", .id "\\FF", [(.id "\\C", [.wire 2 0])]⟩]
  connections := []

/-- The design of `inverterTopModule` over the library cells `INV` (input `I`, output `O`
whose `clkbuf_inv` attribute has the given value), `FF` (a `clkbuf_sink` input `C`) and
`DRV`. -/
def inverterDesign (value : String) : Design where
  modules := [libraryCell "\\INV" [libraryPort 1 "\\I" true false false,
      { libraryPort 2 "\\O" false false false with attributes := ⟨false, false, false, some value⟩ }],
    libraryCell "\\FF" [libraryPort 1 "\\C" true false true],
    libraryCell "\\DRV" [libraryPort 1 "\\O" false false false],
    inverterTopModule]
  names_nodup := by simp only [List.map, libraryCell, inverterTopModule]; decide

/-- With `clkbuf_inv` set to `A`, every cell of a blackbox type connects each port of the
type at its width and no cell is a `BUFR` or `BUFIO`, yet the pass stops: `s` is a sink and
the registered inverter output, and the loop looks up the inverter's port `A`, which it does
not connect.  With the value `I` the same design passes. -/
theorem runBufg_fails_on_malformed_clkbuf_inv :
    (∀ cell ∈ inverterTopModule.cells, ∀ lib ∈ (inverterDesign "A").modules,
        lib.name = cell.type → lib.blackbox = true → ∀ wire ∈ lib.wires, wire.name ∈ lib.ports →
          (cell.getPort wire.name).map List.length = some wire.width) ∧
      (∀ cell ∈ inverterTopModule.cells, cell.type ≠ .id "\\BUFR" ∧ cell.type ≠ .id "\\BUFIO") ∧
      (inverterTopModule.cellById 11).bind (·.getPort (.id "\\A")) = none ∧
      runBufg (inverterDesign "A") 100 = .ok none ∧
      ∃ result, runBufg (inverterDesign "I") 100 = .ok (some result) :=
  ⟨by decide, by decide, rfl, rfl, _, rfl⟩

/-! ## The reconnection always returns -/

section Progress

variable {context : Context} {sigmap : SigBit → SigBit} {bufferedBits : SigBit → Option (Nat × Nat)}
  {bufrMap : Nat → List Nat} {module : Module} (distinct : (module.cells.map Cell.id).Nodup)
  (keys : ∀ cell ∈ module.cells, (cell.connections.map Prod.fst).Nodup)
  (indexedI : ∀ h id, id ∈ bufrMap h →
    ∃ cell ∈ module.cells, cell.id = id ∧ (cell.getPort (.id "\\I")).isSome)

include distinct in
/-- A port a cell of the module connects is connected in the cell's rewired version. -/
theorem Rewired.getPort_isSome {module' : Module}
    (rewired : Rewired context sigmap bufferedBits bufrMap module module') {cell : Cell}
    (mem : cell ∈ module.cells) {port : IdString} (present : (cell.getPort port).isSome) :
    ∃ current, module'.cellById cell.id = some current ∧ (current.getPort port).isSome := by
  obtain ⟨current, located⟩ := rewired.cellById_isSome (List.mem_map_of_mem Cell.id mem)
  obtain ⟨cell₀, mem₀, related⟩ := rewired.exists_of_cellById located
  obtain rfl : cell₀ = cell :=
    List.inj_on_of_nodup_map distinct mem₀ mem (related.1.symm.trans (cellById_spec located).2)
  exact ⟨current, located, lookup_isSome_of_keys related.keys present⟩

include distinct keys indexedI in
theorem Rewired.repointBufr_progress {module' : Module}
    (rewired : Rewired context sigmap bufferedBits bufrMap module module') {id : Nat} {b : SigBit}
    (listed : id ∈ bufrMap (context.hash b)) {cell₀ iwire : Nat}
    (found : bufferedBits b = some (cell₀, iwire)) :
    ∃ module'', Clkbufmap.repointBufr iwire module' id = some module'' ∧
      Rewired context sigmap bufferedBits bufrMap module module'' := by
  obtain ⟨cell, cellMem, rfl, hasI⟩ := indexedI _ id listed
  obtain ⟨current, located, hasI'⟩ := rewired.getPort_isSome distinct cellMem hasI
  obtain ⟨bufrI, hI⟩ := Option.isSome_iff_exists.mp hasI'
  have repointed : Clkbufmap.repointBufr iwire module' cell.id = some (module'.updateCell cell.id fun cell =>
      cell.setPort (.id "\\I") (bufrI.map fun _ => .wire iwire 0)) := by
    simp [Clkbufmap.repointBufr, located, hI]
  exact ⟨_, repointed, rewired.repointBufr distinct keys listed found repointed⟩

include distinct keys indexedI in
theorem Rewired.reconnectBit_progress {module' : Module}
    (rewired : Rewired context sigmap bufferedBits bufrMap module module') (id : Nat) (bits : SigSpec)
    (newsig : Bool) (bit : SigBit) :
    ∃ result, Clkbufmap.reconnectBit context sigmap bufferedBits bufrMap id (module', bits, newsig) bit =
      some result ∧ Rewired context sigmap bufferedBits bufrMap module result.1 := by
  simp only [Clkbufmap.reconnectBit]
  rcases found : bufferedBits (sigmap bit) with _ | ⟨cell₀, iwire⟩
  · exact ⟨_, rfl, rewired⟩
  · by_cases same : id = cell₀
    · exact ⟨(module', bits ++ [bit], newsig), by simp only [if_pos same], rewired⟩
    · obtain ⟨module'', folded, rewired''⟩ := foldlM_progress (bufrMap (context.hash (sigmap bit)))
        (fun _ listed _ rewired => rewired.repointBufr_progress distinct keys indexedI listed found)
        module' rewired
      exact ⟨_, by simp only [if_neg same, folded]; rfl, rewired''⟩

include distinct keys indexedI in
theorem Rewired.reconnectPort_progress (quiet : Quiet sigmap bufferedBits) {module' : Module}
    (rewired : Rewired context sigmap bufferedBits bufrMap module module') {cell : Cell}
    (mem : cell ∈ module.cells) {port : IdString} (present : (cell.getPort port).isSome) :
    ∃ module'', Clkbufmap.reconnectPort context sigmap bufferedBits bufrMap cell.id module' port =
      some module'' ∧ Rewired context sigmap bufferedBits bufrMap module module'' := by
  obtain ⟨current, located, hasPort⟩ := rewired.getPort_isSome distinct mem present
  obtain ⟨signal, hs⟩ := Option.isSome_iff_exists.mp hasPort
  obtain ⟨⟨module₁, bits, newsig⟩, folded, -⟩ :=
    @foldlM_progress _ _ (fun acc => Rewired context sigmap bufferedBits bufrMap module acc.1) _ signal
    (fun bit _ acc rewired => rewired.reconnectBit_progress distinct keys indexedI cell.id acc.2.1
      acc.2.2 bit) (module', [], false) rewired
  have step : Clkbufmap.reconnectPort context sigmap bufferedBits bufrMap cell.id module' port =
      some (if !context.output current.type port then module' else
        if newsig then module₁.updateCell cell.id fun cell => cell.setPort port bits else module₁) := by
    by_cases out : context.output current.type port <;>
      simp [Clkbufmap.reconnectPort, located, out, hs, folded]
  exact ⟨_, step, rewired.reconnectPort distinct keys quiet step⟩

include distinct keys indexedI in
/-- Lines 370-401 return: every cell they look up is there, with every port they read. -/
theorem reconnectDrivers_progress (quiet : Quiet sigmap bufferedBits) :
    ∃ module', reconnectDrivers context sigmap bufferedBits bufrMap module = some module' := by
  refine (foldlM_progress module.cells (fun cell mem module₁ rewired => ?_) module
    (@Rewired.refl context sigmap bufferedBits bufrMap module)).imp fun _ done => done.1
  obtain ⟨current, located⟩ := rewired.cellById_isSome (List.mem_map_of_mem Cell.id mem)
  obtain ⟨cell₀, mem₀, related⟩ := rewired.exists_of_cellById located
  obtain rfl : cell₀ = cell := List.inj_on_of_nodup_map distinct mem₀ mem
    (related.1.symm.trans (cellById_spec located).2)
  obtain ⟨module₂, folded, rewired₂⟩ :=
    @foldlM_progress _ _ (Rewired context sigmap bufferedBits bufrMap module) _ current.connections
    (fun entry entryMem module₂ rewired₂ => by
      have present : (current.getPort entry.1).isSome := by
        simp only [Cell.getPort, List.lookup_isSome_iff, beq_iff_eq]
        exact ⟨entry, entryMem, rfl⟩
      exact rewired₂.reconnectPort_progress distinct keys indexedI quiet mem
        (lookup_isSome_of_keys related.keys.symm present))
    module₁ rewired
  exact ⟨module₂, by simp only [located, Option.some_bind]; exact folded, rewired₂⟩

end Progress

/-! ## The pass returns on well-formed input -/

/-- Lines 255-267 return when every `BUFR` and `BUFIO` cell connects `I` with one bit. -/
theorem bufrCellsMap_progress {context : Context} {bufBits : List SigBit} {cells : List Cell}
    (bufrI : ∀ cell ∈ cells, cell.type = .id "\\BUFR" ∨ cell.type = .id "\\BUFIO" →
      ∃ bit, cell.getPort (.id "\\I") = some [bit]) :
    ∃ map, bufrCellsMap context bufBits cells = some map := by
  refine (@foldlM_progress _ _ (fun _ => True) _ cells (fun cell mem map _ => ?_) _ trivial).imp
    fun _ done => done.1
  unfold indexBufr
  by_cases plain : cell.type ≠ .id "\\BUFR" ∧ cell.type ≠ .id "\\BUFIO"
  · exact ⟨map, if_pos plain, trivial⟩
  · obtain ⟨bit, hI⟩ := bufrI cell mem (by tauto)
    rw [if_neg plain]
    by_cases listed : bit ∈ bufBits <;> simp [hI, asBit, listed]

section Total

variable {context : Context} {tables : TagTables} {autoidx : Nat} {module : Module}
  {sigmap : SigMap module.connections}

/-- The pass on a well-formed module returns when the inverter loop's port lookups succeed and
every `BUFR` and `BUFIO` cell connects `I` with one bit: no other lookup of lines 160-414
can fail. -/
theorem processModule_total (wf : WellFormed module autoidx) (lookups : LookupsSucceed tables module)
    (bufrI : ∀ cell ∈ module.cells, cell.type = .id "\\BUFR" ∨ cell.type = .id "\\BUFIO" →
      ∃ bit, cell.getPort (.id "\\I") = some [bit]) :
    ∃ result, processModule context tables autoidx module sigmap = some result := by
  obtain ⟨tags, looped, -, -⟩ := propagateLoop_spec_of_lookups lookups (fun _ => List.Perm.refl _) _ 0
    ⟨collectBits sigmap tables.sinkPorts module, collectBits sigmap tables.bufPorts module⟩
    (unbuffered_lt_fuel _)
  have propagated : propagateInverters tables sigmap module
      ⟨collectBits sigmap tables.sinkPorts module, collectBits sigmap tables.bufPorts module⟩ =
        some tags := looped
  obtain ⟨bufrMap, indexed⟩ := @bufrCellsMap_progress context
    (collectBufBits context module sigmap module.wires tables.bufPorts).1 _ bufrI
  have grown : Grown context module sigmap tags autoidx module.wires
      (insertBuffers context module sigmap tags autoidx tables.sinkPorts
        (collectBufBits context module sigmap module.wires tables.bufPorts).2) :=
    grown_insertBuffers wf.distinctWires _ _
  obtain ⟨added, cells, -, -⟩ := grown.cells
  have indexedI : ∀ h id, id ∈ bufrMap h → ∃ cell ∈ (insertBuffers context module sigmap tags autoidx
      tables.sinkPorts (collectBufBits context module sigmap module.wires tables.bufPorts).2).module.cells,
      cell.id = id ∧
      (cell.getPort (.id "\\I")).isSome := by
    intro h id listed
    obtain ⟨cell, cellMem, same, -, bit, found, -⟩ := (mem_bufrCellsMap indexed h id).mp listed
    refine ⟨cell, cells ▸ List.mem_append_right _ cellMem, same, ?_⟩
    cases hI : cell.getPort (.id "\\I") with
    | none => simp [hI] at found
    | some _ => rfl
  obtain ⟨reconnected, rewired⟩ := reconnectDrivers_progress (grown.cells_nodup wf.toFresh wf.distinctCells)
    (grown.keys_nodup wf.distinctPorts) indexedI (grown.quiet wf.toFresh)
  exact ⟨_, by simp only [processModule, propagated, indexed, Option.bind_eq_bind, Option.some_bind]; erw [rewired]; rfl⟩

end Total

/-! ## Inverter tables from a well-formed library -/

section Library

variable (library : IdString → Option Module)

/-- Every `clkbuf_inv` port of the blackbox `lib` names, once escaped, a port of `lib` at
least as wide. -/
def InvNamesWidePort (lib : Module) : Prop :=
  ∀ port ∈ lib.ports, ∀ wire ∈ lib.wire port, ∀ value ∈ wire.attributes.clkbufInv,
    escapeId value ∈ lib.ports ∧ ∃ input ∈ lib.wire (escapeId value), wire.width ≤ input.width

/-- `cell` connects every port of the blackbox `lib` at the port's width. -/
def ConnectsPorts (lib : Module) (cell : Cell) : Prop :=
  ∀ port ∈ lib.ports, ∀ wire ∈ lib.wire port, (cell.getPort port).map List.length = some wire.width

/-- Every entry of the inverter tables is one lines 149-156 write for a `clkbuf_inv` port of
a blackbox of `library`. -/
def InvFromLibrary (tables : TagTables) : Prop :=
  (∀ key port index, tables.invPortsOut key = some (port, index) →
    ∃ lib wire value, library key.1 = some lib ∧ key.2.1 ∈ lib.ports ∧ lib.wire key.2.1 = some wire ∧
      wire.attributes.clkbufInv = some value ∧ key.2.2 < wire.width ∧ port = escapeId value ∧
      index = key.2.2) ∧
  ∀ key port index, tables.invPortsIn key = some (port, index) →
    ∃ lib wire value, library key.1 = some lib ∧ port ∈ lib.ports ∧ lib.wire port = some wire ∧
      wire.attributes.clkbufInv = some value ∧ key.2.2 < wire.width ∧ key.2.1 = escapeId value ∧
      index = key.2.2

theorem invFromLibrary_empty : InvFromLibrary library TagTables.empty :=
  ⟨fun _ _ _ entry => Option.noConfusion entry, fun _ _ _ entry => Option.noConfusion entry⟩

variable {library}

/-- Lines 149-156 for one port of a blackbox of the library write entries for that port only. -/
theorem InvFromLibrary.blackboxPortTags {tables : TagTables} (fromLib : InvFromLibrary library tables)
    {lib : Module} (found : library lib.name = some lib) {port : IdString} (mem : port ∈ lib.ports)
    {wire : Wire} (named : lib.wire port = some wire) :
    InvFromLibrary library (Clkbufmap.blackboxPortTags lib wire tables) := by
  have name : wire.name = port := by simpa using List.find?_some named
  unfold Clkbufmap.blackboxPortTags
  cases inv : wire.attributes.clkbufInv with
  | none => exact fromLib
  | some value =>
    refine ⟨fun key port' index entry => ?_, fun key port' index entry => ?_⟩
    · dsimp only at entry
      split at entry
      · rename_i hit
        obtain ⟨rfl, rfl⟩ := Prod.mk.inj (Option.some.inj entry)
        obtain ⟨type, named', lt⟩ := hit
        exact ⟨lib, wire, value, type ▸ found, named' ▸ name ▸ mem, named' ▸ name ▸ named, inv, lt,
          rfl, rfl⟩
      · exact fromLib.1 key port' index entry
    · dsimp only at entry
      split at entry
      · rename_i hit
        obtain ⟨rfl, rfl⟩ := Prod.mk.inj (Option.some.inj entry)
        obtain ⟨type, named', lt⟩ := hit
        exact ⟨lib, wire, value, type ▸ found, name ▸ mem, name ▸ named, inv, lt, named', rfl⟩
      · exact fromLib.2 key port' index entry

/-- Lines 140-158 on a blackbox of the library. -/
theorem InvFromLibrary.blackboxTags {tables tables' : TagTables} (fromLib : InvFromLibrary library tables)
    {lib : Module} (found : library lib.name = some lib)
    (tagged : Clkbufmap.blackboxTags lib tables = some tables') : InvFromLibrary library tables' :=
  foldlM_invariant lib.ports (fun _ mem _ _ holds step => by
      obtain ⟨wire, named, rfl⟩ := Option.map_eq_some'.mp step
      exact holds.blackboxPortTags found mem named)
    fromLib tagged

/-- The pass on an ordinary module hands on the inverter tables as it found them. -/
theorem InvFromLibrary.processModule {context : Context} {tables tables' : TagTables}
    {autoidx autoidx' : Nat} {module result : Module} {sigmap : SigMap module.connections}
    (fromLib : InvFromLibrary library tables)
    (processed : Clkbufmap.processModule context tables autoidx module sigmap =
      some (result, tables', autoidx')) : InvFromLibrary library tables' := by
  obtain ⟨tags, bufrMap, reconnected, -, -, -, same⟩ := processModule_spec processed
  simp only [Prod.mk.injEq] at same
  obtain ⟨-, rfl, -⟩ := same
  exact fromLib

theorem getBit_isSome_of_length {cell : Cell} {port : IdString} {width index : Nat}
    (connected : (cell.getPort port).map List.length = some width) (lt : index < width) :
    (cell.getBit port index).isSome := by
  obtain ⟨signal, found, rfl⟩ := Option.map_eq_some'.mp connected
  simp [Cell.getBit, found, List.get?_eq_getElem?, lt]

/-- With tables from a library whose `clkbuf_inv` values name ports at least as wide, and
cells connecting the ports of their blackbox types at their widths, every port lookup of the
inverter loop succeeds. -/
theorem lookupsSucceed_of_library {tables : TagTables} {module : Module}
    (fromLib : InvFromLibrary library tables)
    (wide : ∀ name lib, library name = some lib → InvNamesWidePort lib)
    (connects : ∀ cell ∈ module.cells, ∀ lib, library cell.type = some lib → ConnectsPorts lib cell) :
    LookupsSucceed tables module := by
  intro slot mem
  have cellMem := (mem_slots.mp mem).1
  refine ⟨fun port index entry => ?_, fun port index entry => ?_⟩
  · obtain ⟨lib, wire, value, found, portMem, named, inv, lt, rfl, rfl⟩ := fromLib.1 _ _ _ entry
    obtain ⟨inMem, input, inNamed, le⟩ := wide _ lib found slot.port portMem wire named value inv
    exact getBit_isSome_of_length (connects slot.cell cellMem lib found _ inMem input inNamed)
      (by omega)
  · obtain ⟨lib, wire, value, found, portMem, named, -, lt, -, rfl⟩ := fromLib.2 _ _ _ entry
    exact getBit_isSome_of_length (connects slot.cell cellMem lib found port portMem wire named) lt

/-- The pass on a well-formed module returns when its inverter tables come from a library
whose `clkbuf_inv` values name ports at least as wide, every cell of a blackbox type connects
the type's ports at their widths, and every `BUFR` and `BUFIO` connects `I` with one bit. -/
theorem processModule_total_of_library {context : Context} {tables : TagTables} {autoidx : Nat}
    {module : Module} {sigmap : SigMap module.connections} (wf : WellFormed module autoidx)
    (fromLib : InvFromLibrary library tables)
    (wide : ∀ name lib, library name = some lib → InvNamesWidePort lib)
    (connects : ∀ cell ∈ module.cells, ∀ lib, library cell.type = some lib → ConnectsPorts lib cell)
    (bufrI : ∀ cell ∈ module.cells, cell.type = .id "\\BUFR" ∨ cell.type = .id "\\BUFIO" →
      ∃ bit, cell.getPort (.id "\\I") = some [bit]) :
    ∃ result, processModule context tables autoidx module sigmap = some result :=
  processModule_total wf (lookupsSucceed_of_library fromLib wide connects) bufrI

theorem inverterTopModule_wellFormed : WellFormed inverterTopModule 100 :=
  ⟨⟨by decide, by decide, by decide, by decide, by decide⟩, by decide, by decide, by decide⟩

theorem processModule_total_of_library_inverter :
    ∃ tables, Clkbufmap.blackboxTags (libraryCell "\\INV" [libraryPort 1 "\\I" true false false,
        { libraryPort 2 "\\O" false false false with attributes := ⟨false, false, false, some "I"⟩ }])
        TagTables.empty = some tables ∧
      ∃ result, processModule bufgContext tables 100 inverterTopModule (SigMap.ofConnections _) =
        some result :=
  have tagged : Clkbufmap.blackboxTags (libraryCell "\\INV" [libraryPort 1 "\\I" true false false,
      { libraryPort 2 "\\O" false false false with attributes := ⟨false, false, false, some "I"⟩ }])
      TagTables.empty = some _ := rfl
  have found : (inverterDesign "I").module (.id "\\INV") = some (libraryCell "\\INV"
      [libraryPort 1 "\\I" true false false,
        { libraryPort 2 "\\O" false false false with attributes := ⟨false, false, false, some "I"⟩ }]) :=
    rfl
  have wide : ∀ lib ∈ (inverterDesign "I").modules, InvNamesWidePort lib := by
    unfold InvNamesWidePort; decide
  have connects : ∀ cell ∈ inverterTopModule.cells, ∀ lib ∈ (inverterDesign "I").modules,
      lib.name = cell.type → ConnectsPorts lib cell := by
    unfold ConnectsPorts; decide
  have plain : ∀ cell ∈ inverterTopModule.cells,
      ¬ (cell.type = .id "\\BUFR" ∨ cell.type = .id "\\BUFIO") := by decide
  ⟨_, tagged, processModule_total_of_library inverterTopModule_wellFormed
    ((invFromLibrary_empty (inverterDesign "I").module).blackboxTags found tagged)
    (fun _ lib found => wide lib (Design.mem_of_module found).1)
    (fun cell mem lib found => connects cell mem lib (Design.mem_of_module found).1
      (Design.mem_of_module found).2)
    (fun cell mem bufr => absurd bufr (plain cell mem))⟩

end Library

end SynthesisRepo.Verified
