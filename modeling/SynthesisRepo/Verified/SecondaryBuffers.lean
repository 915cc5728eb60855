import SynthesisRepo.Clkbufmap.Execute

/-! # Repointing of secondary buffers

The index `bufr_cells_map` (`mem_bufrCellsMap`) holds a `BUFR`/`BUFIO` cell under the
hash of its `I` bit as it is, and only when that bit is one of the canonical bits of
`buf_bits`; the reconnection looks it up by the hash of a canonical bit.  So a `BUFR`
whose `I` reads an alias of a buffered net is never repointed, although the driver of
that net moves behind the buffer; a `BUFR` on another net whose bit hashes alike is
repointed onto the buffered net's driver; a repointed `BUFR` whose `I` is a clock
sink makes a second run of the pass buffer the net it now reads; and when that `I` is the
only clock sink of a driven net, the buffer inserted for it is left driving nothing.
-/

namespace SynthesisRepo.Verified

open Rtlil Clkbufmap

/-- A cell the index holds under hash `h`: a `BUFR` or `BUFIO` whose `I` is one bit, in
`bufBits`, hashing to `h`. -/
def IndexedUnder (context : Context) (bufBits : List SigBit) (h : Nat) (cell : Cell) : Prop :=
  (cell.type = .id "\\BUFR" ∨ cell.type = .id "\\BUFIO") ∧
    ∃ bit, (cell.getPort (.id "\\I")).bind asBit = some bit ∧ bit ∈ bufBits ∧ context.hash bit = h

/-- One cell of the index: it is added under `h` exactly when it is indexed under `h`. -/
theorem mem_indexBufr {context : Context} {bufBits : List SigBit} {map step : Nat → List Nat}
    {cell : Cell} (stepped : indexBufr context bufBits map cell = some step) (h id : Nat) :
    id ∈ step h ↔ id ∈ map h ∨ cell.id = id ∧ IndexedUnder context bufBits h cell := by
  unfold indexBufr at stepped
  by_cases plain : cell.type ≠ .id "\\BUFR" ∧ cell.type ≠ .id "\\BUFIO"
  · rw [if_pos plain, Option.some_inj] at stepped
    subst stepped
    simp [IndexedUnder, plain.1, plain.2]
  · rw [if_neg plain] at stepped
    obtain ⟨bit, iBit, stepped⟩ := Option.bind_eq_some.mp stepped
    have bufr : cell.type = .id "\\BUFR" ∨ cell.type = .id "\\BUFIO" := by tauto
    by_cases mem : bit ∈ bufBits
    · rw [if_pos mem, Option.some_inj] at stepped
      subst stepped
      by_cases same : h = context.hash bit
      · simp [same, IndexedUnder, bufr, iBit, mem, eq_comm]
      · simp [same, IndexedUnder, iBit, Ne.symm same]
    · rw [if_neg mem, Option.some_inj] at stepped
      subst stepped
      simp [IndexedUnder, iBit, mem]

theorem mem_foldlM_indexBufr {context : Context} {bufBits : List SigBit} (cells : List Cell) :
    ∀ {start map : Nat → List Nat}, cells.foldlM (indexBufr context bufBits) start = some map →
      ∀ h id, id ∈ map h ↔ id ∈ start h ∨ ∃ cell ∈ cells, cell.id = id ∧
        IndexedUnder context bufBits h cell := by
  induction cells with
  | nil => intro start map found; cases found; simp
  | cons cell cells ih =>
    intro start map found h id
    obtain ⟨step, stepped, rest⟩ := Option.bind_eq_some.mp found
    rw [ih rest, mem_indexBufr stepped]
    simp only [List.mem_cons, exists_eq_or_imp, or_assoc]

/-- `bufr_cells_map[h]` holds exactly the cells indexed under `h`. -/
theorem mem_bufrCellsMap {context : Context} {bufBits : List SigBit} {cells : List Cell}
    {map : Nat → List Nat} (built : bufrCellsMap context bufBits cells = some map) (h id : Nat) :
    id ∈ map h ↔ ∃ cell ∈ cells, cell.id = id ∧ IndexedUnder context bufBits h cell := by
  simpa using mem_foldlM_indexBufr cells built h id

/-! ## A `BUFR` reading an alias of the clock net -/

/-- Module `top`: `drv` drives `n`, a flip-flop clocks on `n`, and a `BUFR` reads `a`,
assigned from `n` (`assign a = n`). -/
def aliasedBufrModule : Module where
  name := .id "\\top"
  blackbox := false
  top := true
  ports := []
  wires := [⟨1, .id "\\n", 1, 0, false, false, .empty⟩, ⟨2, .id "\\a", 1, 0, false, false, .empty⟩,
    ⟨3, .id "\\q", 1, 0, false, false, .empty⟩]
  cells := [⟨10, .id "\\drv", .id "\\DRV", [(.id "\\O", [.wire 1 0])]⟩,
    ⟨11, .id "\\ff", .id "\\FF", [(.id "\\C", [.wire 1 0])]⟩,
    ⟨12, .id "\\bufr", .id "\\BUFR", [(.id "\\I", [.wire 2 0]), (.id "\\O", [.wire 3 0])]⟩]
  connections := [(.wire 2 0, .wire 1 0)]

/-- The shape of `SigBit::hash`: `mkhash_add` of the wire's name index, for which the
wire's identity stands, and the offset. -/
def sigBitHash : SigBit → Nat
  | .wire wire offset => 33 * wire + offset
  | .const _ => 0

/-- `clkbufmap -buf BUFG O:I` with the whole design selected, where every port named `O`
is an output. -/
def bufgContext : Context where
  options := ⟨"BUFG", "O", "I", "", "", "", false⟩
  bufferInputs := true
  output := fun _ port => port = .id "\\O"
  selected := fun _ _ => true
  hash := sigBitHash

/-- Port `C` of `FF` is a clock sink. -/
def flipFlopSinks : TagTables := ⟨{(.id "\\FF", .id "\\C", 0)}, ∅, fun _ => none, fun _ => none⟩

/-- On `aliasedBufrModule` the pass buffers the canonical bit `n` of `a` and moves its
driver `drv` onto the new wire `101`, but leaves the `BUFR` reading `a`. -/
theorem processModule_keeps_aliased_bufr :
    SigMap.ofConnections aliasedBufrModule.connections (.wire 2 0) = .wire 1 0 ∧
      ∃ result, processModule bufgContext flipFlopSinks 100 aliasedBufrModule
          (SigMap.ofConnections _) = some result ∧
        result.1.cellPort 100 (.id "\\O") = some [.wire 1 0] ∧
        result.1.cellPort 10 (.id "\\O") = some [.wire 101 0] ∧
        result.1.cellPort 12 (.id "\\I") = some [.wire 2 0] :=
  ⟨by decide, _, rfl, by decide, by decide, by decide⟩

/-! ## A `BUFR` on a net whose bit hashes alike -/

/-- Module `top`: `drv` drives `n`, on which a flip-flop clocks, and `src` drives bit 33
of `m`, which a `BUFR` reads; the two bits hash alike. -/
def collidingBufrModule : Module where
  name := .id "\\top"
  blackbox := false
  top := true
  ports := []
  wires := [⟨1, .id "\\m", 34, 0, false, false, .empty⟩, ⟨2, .id "\\n", 1, 0, false, false, .empty⟩,
    ⟨3, .id "\\q", 1, 0, false, false, .empty⟩]
  cells := [⟨10, .id "\\drv", .id "\\DRV", [(.id "\\O", [.wire 2 0])]⟩,
    ⟨11, .id "\\ff", .id "\\FF", [(.id "\\C", [.wire 2 0])]⟩,
    ⟨12, .id "\\bufr", .id "\\BUFR", [(.id "\\I", [.wire 1 33]), (.id "\\O", [.wire 3 0])]⟩,
    ⟨13, .id "\\src", .id "\\DRV", [(.id "\\O", [.wire 1 33])]⟩]
  connections := []

/-- The pass buffers `n` and repoints the `BUFR`, which read `src`, onto the wire that
`drv` now drives. -/
theorem processModule_repoints_colliding_bufr :
    sigBitHash (.wire 1 33) = sigBitHash (.wire 2 0) ∧
      ∃ result, processModule bufgContext flipFlopSinks 100 collidingBufrModule
          (SigMap.ofConnections _) = some result ∧
        result.1.cellPort 13 (.id "\\O") = some [.wire 1 33] ∧
        result.1.cellPort 10 (.id "\\O") = some [.wire 101 0] ∧
        result.1.cellPort 12 (.id "\\I") = some [.wire 101 0] :=
  ⟨rfl, _, rfl, by decide, by decide, by decide⟩

/-! ## A second run -/

/-- A port of a library cell: one bit, numbered by its identity, with its direction and
its `clkbuf_driver` and `clkbuf_sink` attributes. -/
def libraryPort (id : Nat) (name : String) (input driver sink : Bool) : Wire :=
  ⟨id, .id name, 1, id, input, !input, ⟨false, driver, sink, none⟩⟩

/-- A blackbox library cell with the given ports. -/
def libraryCell (name : String) (ports : List Wire) : Module :=
  ⟨.id name, true, false, ports.map (·.name), ports, [], []⟩

/-- A design with the library cells `BUFG` (a `clkbuf_driver` output `O`), `BUFR` (a
`clkbuf_sink` input `I`), `FF` (a `clkbuf_sink` input `C`) and `DRV`, and a top
module where `drv` drives `n`, read by a flip-flop and by a `BUFR`. -/
def bufrDesign : Design where
  modules := [libraryCell "\\BUFG" [libraryPort 1 "\\O" false true false, libraryPort 2 "\\I" true false false],
    libraryCell "\\BUFR" [libraryPort 1 "\\I" true false true, libraryPort 2 "\\O" false true false],
    libraryCell "\\FF" [libraryPort 1 "\\C" true false true],
    libraryCell "\\DRV" [libraryPort 1 "\\O" false false false],
    { aliasedBufrModule with
      wires := [⟨1, .id "\\n", 1, 0, false, false, .empty⟩, ⟨3, .id "\\q", 1, 0, false, false, .empty⟩]
      cells := [⟨10, .id "\\drv", .id "\\DRV", [(.id "\\O", [.wire 1 0])]⟩,
        ⟨11, .id "\\ff", .id "\\FF", [(.id "\\C", [.wire 1 0])]⟩,
        ⟨12, .id "\\bufr", .id "\\BUFR", [(.id "\\I", [.wire 1 0]), (.id "\\O", [.wire 3 0])]⟩]
      connections := [] }]
  names_nodup := by decide

/-- `clkbufmap -buf BUFG O:I` on a whole design with no internal cell types. -/
def runBufg (design : Design) (autoidx : Nat) : Except String (Option (Design × Nat)) :=
  execute (fun _ => none) (fun _ => true) (fun _ _ => true) sigBitHash SigMap.ofConnections
    ["clkbufmap", "-buf", "BUFG", "O:I"] design autoidx

/-- The first run buffers `n` and repoints the `BUFR` onto the driver's new wire `101`;
the second run finds that wire a clock sink and buffers it with a new `BUFG`. -/
theorem runBufg_rebuffers_repointed_bufr :
    ∃ first autoidx second autoidx', runBufg bufrDesign 100 = .ok (some (first, autoidx)) ∧
      runBufg first autoidx = .ok (some (second, autoidx')) ∧
      (first.module (.id "\\top")).bind (·.cellPort 12 (.id "\\I")) = some [.wire 101 0] ∧
      (first.module (.id "\\top")).bind (·.cellById 102) = none ∧
      (second.module (.id "\\top")).bind (·.cellPort 102 (.id "\\O")) = some [.wire 101 0] :=
  ⟨_, _, _, _, rfl, rfl, by decide, by decide, by decide⟩

/-! ## A buffer for a `BUFR` alone -/

/-- A design with the library cells `BUFG`, `BUFR` (a `clkbuf_sink` input `I`) and `DRV`,
and a top module where `drv` drives `n`, which only a `BUFR` reads. -/
def bufrOnlyDesign : Design where
  modules := [libraryCell "\\BUFG" [libraryPort 1 "\\O" false true false,
      libraryPort 2 "\\I" true false false],
    libraryCell "\\BUFR" [libraryPort 1 "\\I" true false true, libraryPort 2 "\\O" false true false],
    libraryCell "\\DRV" [libraryPort 1 "\\O" false false false],
    { name := .id "\\top", blackbox := false, top := true, ports := []
      wires := [⟨1, .id "\\n", 1, 0, false, false, .empty⟩, ⟨3, .id "\\q", 1, 0, false, false, .empty⟩]
      cells := [⟨10, .id "\\drv", .id "\\DRV", [(.id "\\O", [.wire 1 0])]⟩,
        ⟨12, .id "\\bufr", .id "\\BUFR", [(.id "\\I", [.wire 1 0]), (.id "\\O", [.wire 3 0])]⟩]
      connections := [] }]
  names_nodup := by decide

/-- The `BUFR`'s `I` is the only clock sink on `n`, so the pass inserts a `BUFG` driving
`n`, moves `drv` to the new wire `101` and repoints the `BUFR` to `101` as well: afterwards
the `BUFG`'s own `O` is the only port bit on `n`, which no assignment joins to another
wire. -/
theorem runBufg_strands_bufr_buffer :
    ∃ design autoidx, runBufg bufrOnlyDesign 100 = .ok (some (design, autoidx)) ∧
      (design.module (.id "\\top")).bind (·.cellPort 100 (.id "\\O")) = some [.wire 1 0] ∧
      (design.module (.id "\\top")).bind (·.cellPort 12 (.id "\\I")) = some [.wire 101 0] ∧
      (design.module (.id "\\top")).map (fun top => (top.connections,
        (top.cells.filter fun cell => cell.connections.any fun entry => entry.2.contains (.wire 1 0)).map
          Cell.id)) = some ([], [100]) :=
  ⟨_, _, rfl, by decide, by decide, by decide⟩

end SynthesisRepo.Verified
