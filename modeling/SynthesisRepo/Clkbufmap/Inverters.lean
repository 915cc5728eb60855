import SynthesisRepo.Clkbufmap.Tags

/-! # Propagation through inverters

Lines 181-210 of `ClkbufmapPass::execute`: the `while (retry)` loop that pushes clock
sinks backwards and buffered bits forwards through cells registered as inverters.

The C++ loop visits the cell port bits in the iteration order of the cell and port
dictionaries.  The model takes the order of every pass as a parameter, a `schedule`, so
that statements can range over all orders; `propagateInverters` is the code's own
schedule.  The `while` loop is run on fuel; `propagateInverters` gives it one pass per
cell port bit and one more, which it never exhausts (every pass that retries buffers a
new canonical cell port bit).
-/

namespace SynthesisRepo.Clkbufmap

open Rtlil

/-- The two pools the loop grows: `sink_wire_bits` and `buf_wire_bits`. -/
structure InvState where
  sink : Finset SigBit
  buf : Finset SigBit
  deriving DecidableEq

section Rules

variable (tables : TagTables) (sigmap : SigBit → SigBit)

/-- Lines 188-197: at a registered inverter output that is a sink but not yet buffered,
mark it buffered and make the paired input a sink. -/
def outputRule (state : InvState) (slot : Slot) : Option (InvState × Bool) :=
  let bit := sigmap slot.bit
  match tables.invPortsOut slot.key with
  | some (port, index) =>
    if bit ∉ state.buf ∧ bit ∈ state.sink then
      (slot.cell.getBit port index).map fun other =>
        (⟨insert (sigmap other) state.sink, insert bit state.buf⟩, true)
    else some (state, false)
  | none => some (state, false)

/-- Lines 198-207: at a registered inverter input that is buffered, mark the paired
output buffered. -/
def inputRule (state : InvState) (slot : Slot) : Option (InvState × Bool) :=
  let bit := sigmap slot.bit
  match tables.invPortsIn slot.key with
  | some (port, index) =>
    if bit ∈ state.buf then
      (slot.cell.getBit port index).map fun other =>
        if sigmap other ∉ state.buf then (⟨state.sink, insert (sigmap other) state.buf⟩, true)
        else (state, false)
    else some (state, false)
  | none => some (state, false)

/-- The body of the triple loop at one cell port bit: rule 1, then rule 2 on the state
rule 1 left; `retry` accumulates. -/
def visit (acc : InvState × Bool) (slot : Slot) : Option (InvState × Bool) := do
  let (state, fired1) ← outputRule tables sigmap acc.1 slot
  let (state, fired2) ← inputRule tables sigmap state slot
  pure (state, acc.2 || fired1 || fired2)

/-- One pass of the loop, visiting the cell port bits in `order`. -/
def propagatePass (order : List Slot) (state : InvState) : Option (InvState × Bool) :=
  order.foldlM (visit tables sigmap) (state, false)

/-- `while (retry)`, with `fuel` passes at most; pass `n` visits `schedule n`. -/
def propagateLoop (schedule : Nat → List Slot) : Nat → Nat → InvState → Option InvState
  | 0, _, _ => none
  | fuel + 1, n, state => do
    let (state', retry) ← propagatePass tables sigmap (schedule n) state
    if retry then propagateLoop schedule fuel (n + 1) state' else pure state'

/-- The loop as the code runs it: every pass in the module's own order. -/
def propagateInverters (module : Module) (state : InvState) : Option InvState :=
  propagateLoop tables sigmap (fun _ => slots module) ((slots module).length + 1) 0 state

end Rules

end SynthesisRepo.Clkbufmap
