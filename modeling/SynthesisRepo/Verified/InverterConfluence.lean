import SynthesisRepo.Clkbufmap.Inverters
import Mathlib.Data.Finset.Card
import Mathlib.Logic.Relation

/-! # The inverter propagation is confluent

Seen from the buffered set and from the sinks not yet buffered, the loop of lines 181-210
ends in the same place whatever order each pass visits the cell port bits in, provided
each inverter output net has one input net (`OutputsFunctional`): two inverters driving one
net make the result depend on the order, as the pair of inverters at the end of this
module shows.

Each rule the loop applies is a step of the relation `Fires`.  A step changes the observed
pair `(buf, sink \ buf)` as a function of that pair alone (`Fires.observe_compat`), and two
steps from one state join within one step each, up to that pair (`Fires.diamond`): the
critical pair is rule 1 and rule 2 buffering the same inverter output, where rule 1 also
makes the inverter input a sink, but that input is already buffered.  Church-Rosser then
makes the observed normal form unique.  A run of the loop reaches a normal form
(`propagateLoop_spec`), within the fuel the code's loop has, because every retrying pass
buffers a new canonical cell port bit.

**Main results**

* `propagateInverters_terminates`: the loop returns unless a lookup one of its rules performs,
  at a state the rules reach, finds no port bit; every pass that retries buffers a new bit.
* `propagateLoop_confluent`: when no such lookup fails, any two schedules that visit every
  slot once per pass end with the same buffered set and the same unbuffered sinks.
* `propagateLoop_order_dependent`: two inverters driving one net make the result depend on
  the order.
-/

namespace SynthesisRepo.Verified

open Rtlil Clkbufmap Relation

section Confluence

variable (tables : TagTables) (sigmap : SigBit → SigBit) (module : Module)

/-- A registered inverter output slot of the module: canonical output `output`, paired
(by `inv_ports_out`) with canonical input `input`. -/
def OutputPair (output input : SigBit) : Prop :=
  ∃ slot ∈ slots module, ∃ port index other, tables.invPortsOut slot.key = some (port, index) ∧
    slot.cell.getBit port index = some other ∧ sigmap slot.bit = output ∧ sigmap other = input

/-- A registered inverter input slot of the module: canonical input `input`, paired (by
`inv_ports_in`) with canonical output `output`. -/
def InputPair (input output : SigBit) : Prop :=
  ∃ slot ∈ slots module, ∃ port index other, tables.invPortsIn slot.key = some (port, index) ∧
    slot.cell.getBit port index = some other ∧ sigmap slot.bit = input ∧ sigmap other = output

/-- One application of a rule of the loop. -/
inductive Fires : InvState → InvState → Prop
  | output {state : InvState} {output input : SigBit} :
      OutputPair tables sigmap module output input → output ∉ state.buf → output ∈ state.sink →
      Fires state ⟨insert input state.sink, insert output state.buf⟩
  | input {state : InvState} {input output : SigBit} :
      InputPair tables sigmap module input output → input ∈ state.buf → output ∉ state.buf →
      Fires state ⟨state.sink, insert output state.buf⟩

/-- A state closed under both rules. -/
def Stable (state : InvState) : Prop :=
  (∀ output input, OutputPair tables sigmap module output input →
      output ∈ state.sink → output ∈ state.buf) ∧
    ∀ input output, InputPair tables sigmap module input output →
      input ∈ state.buf → output ∈ state.buf

/-- Every entry of `inv_ports_in` is the inverse of an entry of `inv_ports_out`, as in the
tables the blackbox loop builds. -/
def Consistent : Prop :=
  ∀ key port index, tables.invPortsIn key = some (port, index) →
    tables.invPortsOut (key.1, port, index) = some (key.2.1, key.2.2)

/-- Every port a registered slot pairs with is connected at the paired bit. -/
def LookupsSucceed : Prop :=
  ∀ slot ∈ slots module,
    (∀ port index, tables.invPortsOut slot.key = some (port, index) →
      (slot.cell.getBit port index).isSome) ∧
    ∀ port index, tables.invPortsIn slot.key = some (port, index) →
      (slot.cell.getBit port index).isSome

/-- A lookup a rule performs at `slot` in `state` that finds no port bit: rule 1's, at a
registered output that is a sink not yet buffered, or rule 2's, at a registered input that
is buffered.  This is where the code's `getPort(...)[...]` reads past the port. -/
def LookupFails (state : InvState) (slot : Slot) : Prop :=
  (∃ port index, tables.invPortsOut slot.key = some (port, index) ∧ sigmap slot.bit ∉ state.buf ∧
      sigmap slot.bit ∈ state.sink ∧ slot.cell.getBit port index = none) ∨
    ∃ port index, tables.invPortsIn slot.key = some (port, index) ∧ sigmap slot.bit ∈ state.buf ∧
      slot.cell.getBit port index = none

/-- Some state the rules reach from `start` has a lookup that fails at a slot of the
module. -/
def LookupFailsFrom (start : InvState) : Prop :=
  ∃ state, ReflTransGen (Fires tables sigmap module) start state ∧
    ∃ slot ∈ slots module, LookupFails tables sigmap state slot

/-- Every inverter output net has one input net. -/
def OutputsFunctional : Prop :=
  ∀ output input input', OutputPair tables sigmap module output input →
    OutputPair tables sigmap module output input' → input = input'

/-- The connections of every cell name each port once, as the kernel's dictionary does. -/
def CellsWellFormed : Prop := ∀ cell ∈ module.cells, (cell.connections.map Prod.fst).Nodup

/-- What the loop is seen through: the buffered set and the sinks not buffered. -/
def observe (state : InvState) : Finset SigBit × Finset SigBit :=
  (state.buf, state.sink \ state.buf)

/-- The canonical cell port bits of the module, which bound the buffered set's growth. -/
def portBits : Finset SigBit := ((slots module).map fun slot => sigmap slot.bit).toFinset

/-- How many canonical cell port bits are not yet buffered: every rule that fires lowers it. -/
def unbuffered (state : InvState) : Nat := (portBits sigmap module \ state.buf).card

/-- Rule 1 has nothing to do at `slot`. -/
def OutputQuiet (state : InvState) (slot : Slot) : Prop :=
  ∀ port index other, tables.invPortsOut slot.key = some (port, index) →
    slot.cell.getBit port index = some other → sigmap slot.bit ∈ state.sink →
    sigmap slot.bit ∈ state.buf

/-- Rule 2 has nothing to do at `slot`. -/
def InputQuiet (state : InvState) (slot : Slot) : Prop :=
  ∀ port index other, tables.invPortsIn slot.key = some (port, index) →
    slot.cell.getBit port index = some other → sigmap slot.bit ∈ state.buf →
    sigmap other ∈ state.buf

end Confluence

/-! ## The rules are steps of `Fires` -/

section Steps

variable {tables : TagTables} {sigmap : SigBit → SigBit} {module : Module}

theorem mem_portBits {slot : Slot} (mem : slot ∈ slots module) :
    sigmap slot.bit ∈ portBits sigmap module :=
  List.mem_toFinset.mpr (List.mem_map_of_mem _ mem)

/-- The bit a registered slot pairs with is a cell port bit too. -/
theorem mem_portBits_of_getBit {slot : Slot} (mem : slot ∈ slots module) {port : IdString}
    {index : Nat} {other : SigBit} (found : slot.cell.getBit port index = some other) :
    sigmap other ∈ portBits sigmap module :=
  mem_portBits (mem_slots_of_getBit (mem_slots.mp mem).1 found)

/-- A step buffers one canonical cell port bit of the module that was not buffered. -/
theorem Fires.buf_eq {state state' : InvState} (step : Fires tables sigmap module state state') :
    ∃ bit ∈ portBits sigmap module, bit ∉ state.buf ∧ state'.buf = insert bit state.buf := by
  cases step with
  | output pair fresh _ =>
    obtain ⟨slot, mem, -, -, -, -, -, rfl, -⟩ := pair
    exact ⟨_, mem_portBits mem, fresh, rfl⟩
  | input pair _ fresh =>
    obtain ⟨slot, mem, port, index, other, -, found, -, rfl⟩ := pair
    exact ⟨_, mem_portBits_of_getBit mem found, fresh, rfl⟩

theorem Fires.unbuffered_lt {state state' : InvState} (step : Fires tables sigmap module state state') :
    unbuffered sigmap module state' < unbuffered sigmap module state := by
  obtain ⟨bit, mem, fresh, same⟩ := step.buf_eq
  rw [unbuffered, unbuffered, same, Finset.sdiff_insert]
  exact Finset.card_erase_lt_of_mem (Finset.mem_sdiff.mpr ⟨mem, fresh⟩)

theorem unbuffered_lt_of_transGen {state state' : InvState}
    (run : TransGen (Fires tables sigmap module) state state') :
    unbuffered sigmap module state' < unbuffered sigmap module state := by
  induction run with
  | single step => exact step.unbuffered_lt
  | tail _ step ih => exact step.unbuffered_lt.trans ih

/-- Rule 1 at a slot of the module, where it returns, fires as a step of `Fires` or leaves
the state. -/
theorem outputRule_reach {slot : Slot} (mem : slot ∈ slots module) {state : InvState}
    {result : InvState × Bool} (ruled : outputRule tables sigmap state slot = some result) :
    ReflTransGen (Fires tables sigmap module) state result.1 := by
  simp only [outputRule] at ruled
  cases entry : tables.invPortsOut slot.key with
  | none => simp only [entry, Option.some.injEq] at ruled; exact ruled ▸ .refl
  | some target =>
    obtain ⟨port, index⟩ := target
    simp only [entry] at ruled
    by_cases fires : sigmap slot.bit ∉ state.buf ∧ sigmap slot.bit ∈ state.sink
    · rw [if_pos fires] at ruled
      obtain ⟨other, found, rfl⟩ := Option.map_eq_some'.mp ruled
      exact .single (.output ⟨slot, mem, port, index, other, entry, found, rfl, rfl⟩ fires.1 fires.2)
    · rw [if_neg fires, Option.some.injEq] at ruled
      exact ruled ▸ .refl

/-- Rule 2 at a slot of the module, where it returns, fires as a step of `Fires` or leaves
the state. -/
theorem inputRule_reach {slot : Slot} (mem : slot ∈ slots module) {state : InvState}
    {result : InvState × Bool} (ruled : inputRule tables sigmap state slot = some result) :
    ReflTransGen (Fires tables sigmap module) state result.1 := by
  simp only [inputRule] at ruled
  cases entry : tables.invPortsIn slot.key with
  | none => simp only [entry, Option.some.injEq] at ruled; exact ruled ▸ .refl
  | some target =>
    obtain ⟨port, index⟩ := target
    simp only [entry] at ruled
    by_cases buffered : sigmap slot.bit ∈ state.buf
    · rw [if_pos buffered] at ruled
      obtain ⟨other, found, rfl⟩ := Option.map_eq_some'.mp ruled
      by_cases fresh : sigmap other ∈ state.buf
      · simp only [if_neg (not_not.mpr fresh)]; exact .refl
      · simp only [if_pos fresh]
        exact .single (.input ⟨slot, mem, port, index, other, entry, found, rfl, rfl⟩ buffered fresh)
    · rw [if_neg buffered, Option.some.injEq] at ruled
      exact ruled ▸ .refl

theorem visit_reach {slot : Slot} (mem : slot ∈ slots module) {acc result : InvState × Bool}
    (visited : visit tables sigmap acc slot = some result) :
    ReflTransGen (Fires tables sigmap module) acc.1 result.1 := by
  obtain ⟨⟨state₁, fired₁⟩, rule₁, rest⟩ := Option.bind_eq_some.mp visited
  obtain ⟨⟨state₂, fired₂⟩, rule₂, done⟩ := Option.bind_eq_some.mp rest
  have second : ReflTransGen (Fires tables sigmap module) state₁ state₂ := inputRule_reach mem rule₂
  cases done
  exact (outputRule_reach mem rule₁).trans second

theorem foldlM_visit_reach :
    ∀ (order : List Slot), (∀ slot ∈ order, slot ∈ slots module) → ∀ {acc result : InvState × Bool},
      order.foldlM (visit tables sigmap) acc = some result →
      ReflTransGen (Fires tables sigmap module) acc.1 result.1
  | [], _, _, _, done => by cases done; exact .refl
  | slot :: order, within, _, _, done => by
    obtain ⟨acc', visited, rest⟩ := Option.bind_eq_some.mp done
    exact (visit_reach (within slot (List.mem_cons_self _ _)) visited).trans
      (foldlM_visit_reach order (fun s mem => within s (List.mem_cons_of_mem _ mem)) rest)

/-- Every run of the loop that returns, in any schedule of slots of the module, is a run of
`Fires`: the loop does nothing but apply the two rules. -/
theorem propagateLoop_reach {schedule : ℕ → List Slot}
    (within : ∀ n, ∀ slot ∈ schedule n, slot ∈ slots module) :
    ∀ fuel n {state final : InvState}, propagateLoop tables sigmap schedule fuel n state = some final →
      ReflTransGen (Fires tables sigmap module) state final
  | 0, _, _, _, done => nomatch done
  | fuel + 1, n, state, _, done => by
    obtain ⟨⟨state', retry⟩, pass, rest⟩ := Option.bind_eq_some.mp done
    have run := foldlM_visit_reach (schedule n) (within n) pass
    cases retry
    · cases rest
      exact run
    · exact run.trans (propagateLoop_reach within fuel (n + 1) rest)

theorem propagateInverters_reach {start tags : InvState}
    (done : propagateInverters tables sigmap module start = some tags) :
    ReflTransGen (Fires tables sigmap module) start tags :=
  propagateLoop_reach (fun _ _ => id) _ _ done

/-- Rule 1 at a slot of the module fails at its lookup, fires as a step of `Fires`, or
leaves the state as it is and has nothing to do there. -/
theorem outputRule_spec (sigmap : SigBit → SigBit) {slot : Slot} (mem : slot ∈ slots module)
    (state : InvState) :
    outputRule tables sigmap state slot = none ∧ LookupFails tables sigmap state slot ∨
      ∃ state' fired, outputRule tables sigmap state slot = some (state', fired) ∧
        (fired = true ∧ Fires tables sigmap module state state' ∨
          fired = false ∧ state' = state ∧ OutputQuiet tables sigmap state slot) := by
  simp only [outputRule]
  cases entry : tables.invPortsOut slot.key with
  | none => exact .inr ⟨state, false, rfl, .inr ⟨rfl, rfl, fun _ _ _ entry' => by simp [entry] at entry'⟩⟩
  | some target =>
    obtain ⟨port, index⟩ := target
    by_cases fires : sigmap slot.bit ∉ state.buf ∧ sigmap slot.bit ∈ state.sink
    · cases found : slot.cell.getBit port index with
      | none => exact .inl ⟨by simp only [if_pos fires, found, Option.map_none'],
          .inl ⟨port, index, entry, fires.1, fires.2, found⟩⟩
      | some other => exact .inr ⟨_, true, by simp only [if_pos fires, found, Option.map_some'],
          .inl ⟨rfl, .output ⟨slot, mem, port, index, other, entry, found, rfl, rfl⟩ fires.1 fires.2⟩⟩
    · refine .inr ⟨state, false, by simp only [if_neg fires], .inr ⟨rfl, rfl, ?_⟩⟩
      intro _ _ _ _ _ sink
      by_contra fresh
      exact fires ⟨fresh, sink⟩

/-- Rule 2 at a slot of the module fails at its lookup, fires as a step of `Fires`, or
leaves the state as it is and has nothing to do there. -/
theorem inputRule_spec (sigmap : SigBit → SigBit) {slot : Slot} (mem : slot ∈ slots module)
    (state : InvState) :
    inputRule tables sigmap state slot = none ∧ LookupFails tables sigmap state slot ∨
      ∃ state' fired, inputRule tables sigmap state slot = some (state', fired) ∧
        (fired = true ∧ Fires tables sigmap module state state' ∨
          fired = false ∧ state' = state ∧ InputQuiet tables sigmap state slot) := by
  simp only [inputRule]
  cases entry : tables.invPortsIn slot.key with
  | none => exact .inr ⟨state, false, rfl, .inr ⟨rfl, rfl, fun _ _ _ entry' => by simp [entry] at entry'⟩⟩
  | some target =>
    obtain ⟨port, index⟩ := target
    by_cases buffered : sigmap slot.bit ∈ state.buf
    · cases found : slot.cell.getBit port index with
      | none => exact .inl ⟨by simp [buffered, found], .inr ⟨port, index, entry, buffered, found⟩⟩
      | some other =>
        by_cases fresh : sigmap other ∈ state.buf
        · refine .inr ⟨state, false, by simp [buffered, found, fresh], .inr ⟨rfl, rfl, ?_⟩⟩
          intro port' index' other' entry' found' _
          obtain ⟨rfl, rfl⟩ := Prod.mk.inj (Option.some_inj.mp (entry.symm.trans entry'))
          obtain rfl := Option.some_inj.mp (found.symm.trans found')
          exact fresh
        · exact .inr ⟨_, true, by simp [buffered, found, fresh],
            .inl ⟨rfl, .input ⟨slot, mem, port, index, other, entry, found, rfl, rfl⟩ buffered fresh⟩⟩
    · exact .inr ⟨state, false, by simp [buffered], .inr ⟨rfl, rfl, fun _ _ _ _ _ h => absurd h buffered⟩⟩

/-- One visit of a slot: a lookup fails at a state the rules reach, some rule fired, or the
state is left as it is and neither rule has anything to do at the slot. -/
theorem visit_spec (sigmap : SigBit → SigBit) {slot : Slot} (mem : slot ∈ slots module)
    (state : InvState) (retry : Bool) :
    (visit tables sigmap (state, retry) slot = none ∧ ∃ state', ReflTransGen (Fires tables sigmap module)
        state state' ∧ LookupFails tables sigmap state' slot) ∨
      ∃ state' fired, visit tables sigmap (state, retry) slot = some (state', retry || fired) ∧
        (fired = true ∧ TransGen (Fires tables sigmap module) state state' ∨
          fired = false ∧ state' = state ∧ OutputQuiet tables sigmap state slot ∧
            InputQuiet tables sigmap state slot) := by
  rcases outputRule_spec sigmap mem state with ⟨rule₁, fails⟩ | ⟨state₁, fired₁, rule₁, spec₁⟩
  · exact .inl ⟨by simp [visit, rule₁], state, .refl, fails⟩
  rcases inputRule_spec sigmap mem state₁ with ⟨rule₂, fails⟩ | ⟨state₂, fired₂, rule₂, spec₂⟩
  · refine .inl ⟨by simp [visit, rule₁, rule₂], state₁, ?_, fails⟩
    rcases spec₁ with ⟨-, step₁⟩ | ⟨-, rfl, -⟩
    exacts [.single step₁, .refl]
  refine .inr ⟨state₂, fired₁ || fired₂, by simp [visit, rule₁, rule₂, Bool.or_assoc], ?_⟩
  rcases spec₁ with ⟨rfl, step₁⟩ | ⟨rfl, rfl, quiet₁⟩ <;>
    rcases spec₂ with ⟨rfl, step₂⟩ | ⟨rfl, rfl, quiet₂⟩
  · exact .inl ⟨rfl, .tail (.single step₁) step₂⟩
  · exact .inl ⟨rfl, .single step₁⟩
  · exact .inl ⟨rfl, .single step₂⟩
  · exact .inr ⟨rfl, rfl, quiet₁, quiet₂⟩

/-- A pass over slots of the module: a lookup fails at a state the rules reach, the pass
retries after some rule fired, or it leaves the state as it is and neither rule has anything
to do at any slot it visited. -/
theorem foldlM_visit_spec (sigmap : SigBit → SigBit) (order : List Slot)
    (within : ∀ slot ∈ order, slot ∈ slots module) (state : InvState) (retry : Bool) :
    (order.foldlM (visit tables sigmap) (state, retry) = none ∧ ∃ state',
        ReflTransGen (Fires tables sigmap module) state state' ∧ ∃ slot ∈ order,
          LookupFails tables sigmap state' slot) ∨
      ∃ state' fired, order.foldlM (visit tables sigmap) (state, retry) = some (state', retry || fired) ∧
        (fired = true ∧ TransGen (Fires tables sigmap module) state state' ∨
          fired = false ∧ state' = state ∧ ∀ slot ∈ order, OutputQuiet tables sigmap state slot ∧
            InputQuiet tables sigmap state slot) := by
  induction order generalizing state retry with
  | nil => exact .inr ⟨state, false, by simp, .inr ⟨rfl, rfl, by simp⟩⟩
  | cons slot order ih =>
    rcases visit_spec sigmap (within slot (List.mem_cons_self _ _)) state retry with
      ⟨visited, state₁, run₁, fails⟩ | ⟨state₁, fired₁, visited, spec₁⟩
    · exact .inl ⟨by simp [visited], state₁, run₁, slot, List.mem_cons_self _ _, fails⟩
    have run₁ : ReflTransGen (Fires tables sigmap module) state state₁ := by
      rcases spec₁ with ⟨-, run₁⟩ | ⟨-, rfl, -⟩
      exacts [run₁.to_reflTransGen, .refl]
    rcases ih (fun slot mem => within slot (List.mem_cons_of_mem _ mem)) state₁ (retry || fired₁) with
      ⟨rest, state₂, run₂, slot', mem', fails⟩ | ⟨state₂, fired₂, rest, spec₂⟩
    · exact .inl ⟨by simp [visited, rest], state₂, run₁.trans run₂, slot', List.mem_cons_of_mem _ mem', fails⟩
    refine .inr ⟨state₂, fired₁ || fired₂, by simp [visited, rest, Bool.or_assoc], ?_⟩
    rcases spec₁ with ⟨rfl, run₁⟩ | ⟨rfl, rfl, quiet₁⟩ <;>
      rcases spec₂ with ⟨rfl, run₂⟩ | ⟨rfl, rfl, quiet₂⟩
    · exact .inl ⟨rfl, run₁.trans run₂⟩
    · exact .inl ⟨rfl, run₁⟩
    · exact .inl ⟨rfl, run₂⟩
    · exact .inr ⟨rfl, rfl, List.forall_mem_cons.mpr ⟨quiet₁, quiet₂⟩⟩

/-- A state where neither rule has anything to do at any slot of the module is stable. -/
theorem stable_of_quiet {state : InvState}
    (quiet : ∀ slot ∈ slots module, OutputQuiet tables sigmap state slot ∧
      InputQuiet tables sigmap state slot) :
    Stable tables sigmap module state := by
  constructor
  · rintro _ _ ⟨slot, mem, port, index, other, entry, found, rfl, rfl⟩
    exact (quiet slot mem).1 port index other entry found
  · rintro _ _ ⟨slot, mem, port, index, other, entry, found, rfl, rfl⟩
    exact (quiet slot mem).2 port index other entry found

/-- The loop, with every pass visiting each slot of the module once, ends within more
passes than there are canonical bits left to buffer, in a stable state that the rules
reach, unless a lookup fails at a state they reach. -/
theorem propagateLoop_spec {schedule : ℕ → List Slot} (perm : ∀ n, (schedule n).Perm (slots module)) :
    ∀ fuel n state, unbuffered sigmap module state < fuel →
      propagateLoop tables sigmap schedule fuel n state = none ∧ LookupFailsFrom tables sigmap module state ∨
      ∃ final, propagateLoop tables sigmap schedule fuel n state = some final ∧
        ReflTransGen (Fires tables sigmap module) state final ∧ Stable tables sigmap module final
  | 0, _, _, bound => absurd bound (Nat.not_lt_zero _)
  | fuel + 1, n, state, bound => by
    rcases foldlM_visit_spec sigmap (schedule n) (fun slot mem => (perm n).mem_iff.mp mem) state false with
      ⟨pass, state', run, slot, mem, fails⟩ | ⟨state', retry, pass, spec⟩
    · exact .inl ⟨by simp [propagateLoop, propagatePass, pass], state', run, slot, (perm n).mem_iff.mp mem,
        fails⟩
    rcases spec with ⟨rfl, run⟩ | ⟨rfl, rfl, quiet⟩
    · rcases propagateLoop_spec perm fuel (n + 1) state' (by have := unbuffered_lt_of_transGen run; omega) with
        ⟨loop, state'', run', fails⟩ | ⟨final, loop, run', stable⟩
      · exact .inl ⟨by simp [propagateLoop, propagatePass, pass, loop], state'',
          run.to_reflTransGen.trans run', fails⟩
      · exact .inr ⟨final, by simp [propagateLoop, propagatePass, pass, loop], run.to_reflTransGen.trans run',
          stable⟩
    · exact .inr ⟨state', by simp [propagateLoop, propagatePass, pass], .refl,
        stable_of_quiet fun slot mem => quiet slot ((perm n).mem_iff.mpr mem)⟩

/-- When every registered pairing resolves, no lookup fails. -/
theorem LookupsSucceed.not_lookupFailsFrom (lookups : LookupsSucceed tables module) (start : InvState) :
    ¬ LookupFailsFrom tables sigmap module start := by
  rintro ⟨state, -, slot, mem, ⟨port, index, entry, -, -, missing⟩ | ⟨port, index, entry, -, missing⟩⟩
  · simpa [missing] using (lookups slot mem).1 port index entry
  · simpa [missing] using (lookups slot mem).2 port index entry

/-- The loop as `propagateLoop_spec` has it, when every registered pairing resolves. -/
theorem propagateLoop_spec_of_lookups (lookups : LookupsSucceed tables module) {schedule : ℕ → List Slot}
    (perm : ∀ n, (schedule n).Perm (slots module)) (fuel n : ℕ) (state : InvState)
    (bound : unbuffered sigmap module state < fuel) :
    ∃ final, propagateLoop tables sigmap schedule fuel n state = some final ∧
      ReflTransGen (Fires tables sigmap module) state final ∧ Stable tables sigmap module final :=
  (propagateLoop_spec perm fuel n state bound).resolve_left fun ⟨_, fails⟩ =>
    lookups.not_lookupFailsFrom state fails

end Steps

/-! ## Confluence up to the observed pair -/

section Observed

variable {tables : TagTables} {sigmap : SigBit → SigBit} {module : Module}

private theorem insert_sdiff_congr {sink sink' buf : Finset SigBit} (bit : SigBit)
    (same : sink \ buf = sink' \ buf) : insert bit sink \ buf = insert bit sink' \ buf := by
  by_cases mem : bit ∈ buf
  · rw [Finset.insert_sdiff_of_mem _ mem, Finset.insert_sdiff_of_mem _ mem, same]
  · rw [Finset.insert_sdiff_of_not_mem _ mem, Finset.insert_sdiff_of_not_mem _ mem, same]

/-- A step changes the observed pair as a function of the observed pair alone. -/
theorem Fires.observe_compat {state state' other : InvState}
    (step : Fires tables sigmap module state state') (same : observe state = observe other) :
    ∃ other', Fires tables sigmap module other other' ∧ observe state' = observe other' := by
  obtain ⟨sameBuf, sameSink⟩ := Prod.mk.inj same
  cases step with
  | output pair fresh sink =>
    have waiting := Finset.mem_sdiff.mp (sameSink ▸ Finset.mem_sdiff.mpr ⟨sink, fresh⟩)
    refine ⟨_, .output pair waiting.2 waiting.1, ?_⟩
    simp only [observe, sameBuf, Finset.sdiff_insert,
      insert_sdiff_congr _ (sameBuf ▸ sameSink : state.sink \ other.buf = other.sink \ other.buf)]
  | input pair buffered fresh =>
    refine ⟨_, .input pair (sameBuf ▸ buffered) (sameBuf ▸ fresh), ?_⟩
    simp only [observe, sameBuf, Finset.sdiff_insert, ← sameSink]

/-- With consistent tables, a registered input pair is also a registered output pair. -/
theorem InputPair.outputPair (consistent : Consistent tables) (wellFormed : CellsWellFormed module)
    {input output : SigBit} (pair : InputPair tables sigmap module input output) :
    OutputPair tables sigmap module output input := by
  obtain ⟨slot, mem, port, index, other, entry, found, rfl, rfl⟩ := pair
  exact ⟨⟨slot.cell, port, index, other⟩, mem_slots_of_getBit (mem_slots.mp mem).1 found,
    slot.port, slot.index, slot.bit, consistent slot.key port index entry,
    getBit_of_mem_slots (wellFormed _ (mem_slots.mp mem).1) mem, rfl, rfl⟩

/-- Rule 1 and rule 2 from one state join.  When both buffer the same output, its input is
already buffered, so the sink rule 1 adds is not observed. -/
theorem diamond_output_input (consistent : Consistent tables) (wellFormed : CellsWellFormed module)
    (functional : OutputsFunctional tables sigmap module) {state : InvState}
    {output input input' output' : SigBit} (pair : OutputPair tables sigmap module output input)
    (fresh : output ∉ state.buf) (sink : output ∈ state.sink)
    (pair' : InputPair tables sigmap module input' output') (buffered' : input' ∈ state.buf)
    (fresh' : output' ∉ state.buf) :
    ∃ joined joined', ReflGen (Fires tables sigmap module)
        ⟨insert input state.sink, insert output state.buf⟩ joined ∧
      ReflGen (Fires tables sigmap module) ⟨state.sink, insert output' state.buf⟩ joined' ∧
      observe joined = observe joined' := by
  by_cases same : output = output'
  · subst same
    obtain rfl := functional _ _ _ pair (pair'.outputPair consistent wellFormed)
    refine ⟨_, _, .refl, .refl, ?_⟩
    simp only [observe, Finset.insert_sdiff_of_mem _ (Finset.mem_insert_of_mem buffered')]
  · refine ⟨_, _, .single (.input pair' (Finset.mem_insert_of_mem buffered') ?_),
      .single (.output pair ?_ sink), ?_⟩
    · simpa [Ne.symm same] using fresh'
    · simpa [same] using fresh
    · simp only [observe, Finset.Insert.comm output' output]

/-- Two steps from one state join within one step each, up to the observed pair. -/
theorem Fires.diamond (consistent : Consistent tables) (wellFormed : CellsWellFormed module)
    (functional : OutputsFunctional tables sigmap module) {state left right : InvState}
    (stepLeft : Fires tables sigmap module state left)
    (stepRight : Fires tables sigmap module state right) :
    ∃ joined joined', ReflGen (Fires tables sigmap module) left joined ∧
      ReflGen (Fires tables sigmap module) right joined' ∧ observe joined = observe joined' := by
  cases stepLeft with
  | @output output input pair fresh sink =>
    cases stepRight with
    | @output output' input' pair' fresh' sink' =>
      by_cases same : output = output'
      · subst same
        obtain rfl := functional _ _ _ pair pair'
        exact ⟨_, _, .refl, .refl, rfl⟩
      · refine ⟨_, _, .single (.output pair' ?_ (Finset.mem_insert_of_mem sink')),
          .single (.output pair ?_ (Finset.mem_insert_of_mem sink)), ?_⟩
        · simpa [Ne.symm same] using fresh'
        · simpa [same] using fresh
        · simp only [observe, Finset.Insert.comm input' input, Finset.Insert.comm output' output]
    | input pair' buffered' fresh' =>
      exact diamond_output_input consistent wellFormed functional pair fresh sink pair' buffered'
        fresh'
  | @input input output pair buffered fresh =>
    cases stepRight with
    | output pair' fresh' sink' =>
      obtain ⟨joined, joined', left, right, same⟩ :=
        diamond_output_input consistent wellFormed functional pair' fresh' sink' pair buffered fresh
      exact ⟨joined', joined, right, left, same.symm⟩
    | @input input' output' pair' buffered' fresh' =>
      by_cases same : output = output'
      · subst same
        exact ⟨_, _, .refl, .refl, rfl⟩
      · refine ⟨_, _, .single (.input pair' (Finset.mem_insert_of_mem buffered') ?_),
          .single (.input pair (Finset.mem_insert_of_mem buffered) ?_), ?_⟩
        · simpa [Ne.symm same] using fresh'
        · simpa [same] using fresh
        · simp only [Finset.Insert.comm output' output]

variable (tables sigmap module) in
/-- Steps between observed pairs: some state with the first pair steps to some state with
the second. -/
def ObservedFires (pair pair' : Finset SigBit × Finset SigBit) : Prop :=
  ∃ state state', observe state = pair ∧ Fires tables sigmap module state state' ∧
    observe state' = pair'

theorem observe_reflGen {state state' : InvState}
    (steps : ReflGen (Fires tables sigmap module) state state') :
    ReflGen (ObservedFires tables sigmap module) (observe state) (observe state') := by
  cases steps with
  | refl => exact .refl
  | single step => exact .single ⟨_, _, rfl, step, rfl⟩

theorem observe_reflTransGen {state state' : InvState}
    (run : ReflTransGen (Fires tables sigmap module) state state') :
    ReflTransGen (ObservedFires tables sigmap module) (observe state) (observe state') :=
  run.lift observe fun _ _ step => ⟨_, _, rfl, step, rfl⟩

theorem ObservedFires.diamond (consistent : Consistent tables) (wellFormed : CellsWellFormed module)
    (functional : OutputsFunctional tables sigmap module) {pair left right}
    (stepLeft : ObservedFires tables sigmap module pair left)
    (stepRight : ObservedFires tables sigmap module pair right) :
    ∃ joined, ReflGen (ObservedFires tables sigmap module) left joined ∧
      ReflTransGen (ObservedFires tables sigmap module) right joined := by
  obtain ⟨state, left, rfl, stepLeft, rfl⟩ := stepLeft
  obtain ⟨state', right, same, stepRight, rfl⟩ := stepRight
  obtain ⟨right', stepRight', sameRight⟩ := stepRight.observe_compat same
  obtain ⟨joined, joined', toLeft, toRight, sameJoined⟩ :=
    stepLeft.diamond consistent wellFormed functional stepRight'
  exact ⟨_, observe_reflGen toLeft,
    sameRight ▸ sameJoined ▸ (observe_reflGen toRight).to_reflTransGen⟩

/-- No step leaves the observed pair of a stable state. -/
theorem Stable.not_observedFires {state : InvState} (stable : Stable tables sigmap module state)
    (pair : Finset SigBit × Finset SigBit) :
    ¬ ObservedFires tables sigmap module (observe state) pair := by
  rintro ⟨other, other', same, step, -⟩
  obtain ⟨state', step', -⟩ := step.observe_compat same
  cases step' with
  | output pair fresh sink => exact fresh (stable.1 _ _ pair sink)
  | input pair buffered fresh => exact fresh (stable.2 _ _ pair buffered)

/-- Stable states that the rules reach from one state are observed alike. -/
theorem observe_eq_of_stable (consistent : Consistent tables) (wellFormed : CellsWellFormed module)
    (functional : OutputsFunctional tables sigmap module) {state final final' : InvState}
    (run : ReflTransGen (Fires tables sigmap module) state final)
    (run' : ReflTransGen (Fires tables sigmap module) state final')
    (stable : Stable tables sigmap module final) (stable' : Stable tables sigmap module final') :
    observe final = observe final' := by
  obtain ⟨joined, toJoined, toJoined'⟩ :=
    church_rosser (fun _ _ _ => ObservedFires.diamond consistent wellFormed functional)
      (observe_reflTransGen run) (observe_reflTransGen run')
  have normal : ∀ {final}, Stable tables sigmap module final →
      ReflTransGen (ObservedFires tables sigmap module) (observe final) joined →
      observe final = joined := fun stable run => by
    rcases run.cases_head with same | ⟨pair, step, -⟩
    · exact same
    · exact absurd step (stable.not_observedFires pair)
  exact (normal stable toJoined).trans (normal stable' toJoined').symm

end Observed

/-! ## The loop -/

section Loop

variable {tables : TagTables} {sigmap : SigBit → SigBit} {module : Module}

theorem unbuffered_lt_fuel (state : InvState) :
    unbuffered sigmap module state < (slots module).length + 1 := by
  have card : (portBits sigmap module).card ≤ (slots module).length :=
    (List.toFinset_card_le _).trans (List.length_map _ _).le
  have := Finset.card_le_card (Finset.sdiff_subset : portBits sigmap module \ state.buf ⊆ _)
  unfold unbuffered
  omega

/-- Steps keep every buffered bit, buffer at least one new bit, and buffer only canonical cell
port bits of the module. -/
theorem buf_of_transGen {state state' : InvState} (run : TransGen (Fires tables sigmap module) state state') :
    state.buf ⊆ state'.buf ∧ (∃ bit, bit ∉ state.buf ∧ bit ∈ state'.buf) ∧
      ∀ bit ∈ state'.buf, bit ∉ state.buf → bit ∈ portBits sigmap module := by
  induction run with
  | single step =>
    obtain ⟨bit, mem, fresh, same⟩ := step.buf_eq
    rw [same]
    refine ⟨Finset.subset_insert _ _, ⟨bit, fresh, Finset.mem_insert_self _ _⟩, fun b bMem old => ?_⟩
    rcases Finset.mem_insert.mp bMem with rfl | kept
    · exact mem
    · exact absurd kept old
  | tail _ step ih =>
    obtain ⟨sub, ⟨new, fresh, newMem⟩, within⟩ := ih
    obtain ⟨bit, mem, -, same⟩ := step.buf_eq
    rw [same]
    refine ⟨sub.trans (Finset.subset_insert _ _), ⟨new, fresh, Finset.mem_insert_of_mem newMem⟩,
      fun b bMem old => ?_⟩
    rcases Finset.mem_insert.mp bMem with rfl | kept
    · exact mem
    · exact within b kept old

/-- The `while (retry)` loop ends, within the fuel the code's loop has, unless a lookup a rule
performs at a state the rules reach finds no port bit: a pass that sets `retry` keeps every
buffered bit and buffers a new one, and buffers only canonical cell port bits of the module, a
finite set no pass enlarges, so the number of those still unbuffered falls. -/
theorem propagateInverters_terminates (start : InvState) :
    ((∃ final, propagateInverters tables sigmap module start = some final) ∨
        LookupFailsFrom tables sigmap module start) ∧
      ∀ state state', propagatePass tables sigmap (slots module) state = some (state', true) →
        state.buf ⊆ state'.buf ∧ (∃ bit, bit ∉ state.buf ∧ bit ∈ state'.buf) ∧
        (∀ bit ∈ state'.buf, bit ∉ state.buf → bit ∈ portBits sigmap module) ∧
        unbuffered sigmap module state' < unbuffered sigmap module state := by
  refine ⟨?_, fun state state' pass => ?_⟩
  · rcases propagateLoop_spec (fun _ => List.Perm.refl _) _ 0 start (unbuffered_lt_fuel start) with
      ⟨-, fails⟩ | ⟨final, loop, -⟩
    exacts [.inr fails, .inl ⟨final, loop⟩]
  · rcases foldlM_visit_spec sigmap (slots module) (fun _ mem => mem) state false with
      ⟨failed, -⟩ | ⟨state₁, fired, pass₁, spec⟩
    · exact absurd (pass.symm.trans failed) (Option.some_ne_none _)
    obtain ⟨rfl, retried⟩ := Prod.mk.inj (Option.some.inj (pass₁.symm.trans pass))
    rcases spec with ⟨-, run⟩ | ⟨rfl, -⟩
    · exact ⟨(buf_of_transGen run).1, (buf_of_transGen run).2.1, (buf_of_transGen run).2.2,
        unbuffered_lt_of_transGen run⟩
    · simp at retried

/-- Any two schedules that visit every slot of the module once in each pass end, within the
code's fuel, in stable states with the same buffered set and the same unbuffered sinks, when no
lookup the rules perform from the start fails. -/
theorem propagateLoop_confluent (consistent : Consistent tables) (state : InvState)
    (resolved : ¬ LookupFailsFrom tables sigmap module state) (functional : OutputsFunctional tables sigmap module)
    (wellFormed : CellsWellFormed module) {schedule schedule' : ℕ → List Slot}
    (perm : ∀ n, (schedule n).Perm (slots module)) (perm' : ∀ n, (schedule' n).Perm (slots module)) :
    ∃ final final',
      propagateLoop tables sigmap schedule ((slots module).length + 1) 0 state = some final ∧
      propagateLoop tables sigmap schedule' ((slots module).length + 1) 0 state = some final' ∧
      observe final = observe final' ∧
      Stable tables sigmap module final ∧ Stable tables sigmap module final' := by
  obtain ⟨final, loop, run, stable⟩ :=
    (propagateLoop_spec perm _ 0 state (unbuffered_lt_fuel state)).resolve_left fun ⟨_, fails⟩ => resolved fails
  obtain ⟨final', loop', run', stable'⟩ :=
    (propagateLoop_spec perm' _ 0 state (unbuffered_lt_fuel state)).resolve_left fun ⟨_, fails⟩ => resolved fails
  exact ⟨final, final', loop, loop', observe_eq_of_stable consistent wellFormed functional run run'
    stable stable', stable, stable'⟩

end Loop

/-! ## Inverters on one net -/

/-- The tables lines 140-158 build for a blackbox `NOT` whose output `O` carries
`clkbuf_inv = "I"`. -/
def notTables : TagTables where
  sinkPorts := ∅
  bufPorts := ∅
  invPortsOut key := if key = (.id "\\NOT", .id "\\O", 0) then some (.id "\\I", 0) else none
  invPortsIn key := if key = (.id "\\NOT", .id "\\I", 0) then some (.id "\\O", 0) else none

/-- A `NOT` cell `n1` from wire 1 to wire 2. -/
def inverterCell : Cell := ⟨10, .id "\\n1", .id "\\NOT", [(.id "\\I", [.wire 1 0]), (.id "\\O", [.wire 2 0])]⟩

/-- A module with one inverter. -/
def inverterModule : Module := ⟨.id "\\top", false, true, [], [], [inverterCell], []⟩

theorem notTables_consistent : Consistent notTables := by
  intro key port index entry
  simp only [notTables] at entry
  split_ifs at entry with found
  cases entry
  subst found
  rfl

theorem inverterModule_lookups : LookupsSucceed notTables inverterModule := by
  intro slot mem
  have enumerated : slots inverterModule =
      [⟨inverterCell, .id "\\I", 0, .wire 1 0⟩, ⟨inverterCell, .id "\\O", 0, .wire 2 0⟩] := rfl
  simp only [enumerated, List.mem_cons, List.mem_singleton, List.not_mem_nil, or_false] at mem
  rcases mem with rfl | rfl <;> constructor <;> intro port index entry <;>
    simp [notTables, Slot.key, inverterCell] at entry <;> obtain ⟨rfl, rfl⟩ := entry <;> decide

theorem propagateInverters_terminates_inverter :
    ((∃ final, propagateInverters notTables id inverterModule ⟨{.wire 2 0}, ∅⟩ = some final) ∨
        LookupFailsFrom notTables id inverterModule ⟨{.wire 2 0}, ∅⟩) ∧
      ∀ state state', propagatePass notTables id (slots inverterModule) state = some (state', true) →
        state.buf ⊆ state'.buf ∧ (∃ bit, bit ∉ state.buf ∧ bit ∈ state'.buf) ∧
        (∀ bit ∈ state'.buf, bit ∉ state.buf → bit ∈ portBits id inverterModule) ∧
        unbuffered id inverterModule state' < unbuffered id inverterModule state :=
  propagateInverters_terminates _

theorem propagateLoop_confluent_inverter :
    Consistent notTables ∧ ¬ LookupFailsFrom notTables id inverterModule ⟨{.wire 2 0}, ∅⟩ ∧
      OutputsFunctional notTables id inverterModule ∧ CellsWellFormed inverterModule ∧
      (∀ _ : ℕ, (slots inverterModule).Perm (slots inverterModule)) ∧
      (∀ _ : ℕ, (slots inverterModule).reverse.Perm (slots inverterModule)) ∧
      ∃ final final',
        propagateLoop notTables id (fun _ => slots inverterModule)
          ((slots inverterModule).length + 1) 0 ⟨{.wire 2 0}, ∅⟩ = some final ∧
        propagateLoop notTables id (fun _ => (slots inverterModule).reverse)
          ((slots inverterModule).length + 1) 0 ⟨{.wire 2 0}, ∅⟩ = some final' ∧
        observe final = observe final' ∧
        Stable notTables id inverterModule final ∧ Stable notTables id inverterModule final' := by
  have enumerated : slots inverterModule =
      [⟨inverterCell, .id "\\I", 0, .wire 1 0⟩, ⟨inverterCell, .id "\\O", 0, .wire 2 0⟩] := rfl
  have resolved : ¬ LookupFailsFrom notTables id inverterModule ⟨{.wire 2 0}, ∅⟩ :=
    inverterModule_lookups.not_lookupFailsFrom _
  have input : ∀ slot ∈ slots inverterModule, ∀ port index other,
      notTables.invPortsOut slot.key = some (port, index) → slot.cell.getBit port index = some other →
      other = .wire 1 0 := by
    intro slot mem port index other entry found
    simp only [enumerated, List.mem_cons, List.mem_singleton, List.not_mem_nil, or_false] at mem
    rcases mem with rfl | rfl <;> simp [notTables, Slot.key, inverterCell] at entry
    obtain ⟨rfl, rfl⟩ := entry
    simpa [Cell.getBit, Cell.getPort, inverterCell] using found.symm
  have functional : OutputsFunctional notTables id inverterModule := by
    rintro _ _ _ ⟨slot, mem, port, index, other, entry, found, rfl, rfl⟩
      ⟨slot', mem', port', index', other', entry', found', -, rfl⟩
    rw [id, id, input slot mem port index other entry found,
      input slot' mem' port' index' other' entry' found']
  have wellFormed : CellsWellFormed inverterModule := by unfold CellsWellFormed; decide
  have perm : ∀ _ : ℕ, (slots inverterModule).Perm (slots inverterModule) :=
    fun _ => List.Perm.refl _
  have perm' : ∀ _ : ℕ, (slots inverterModule).reverse.Perm (slots inverterModule) :=
    fun _ => List.reverse_perm _
  exact ⟨notTables_consistent, resolved, functional, wellFormed, perm, perm',
    propagateLoop_confluent notTables_consistent _ resolved functional wellFormed perm perm'⟩

/-- Two `NOT` cells on one net: `n1` from wire 1 and `n2` from wire 3, both
driving wire 2. -/
def inverterPairModule : Module :=
  ⟨.id "\\top", false, true, [], [],
    [inverterCell, ⟨11, .id "\\n2", .id "\\NOT", [(.id "\\I", [.wire 3 0]), (.id "\\O", [.wire 2 0])]⟩],
    []⟩

/-- With wire 2 a sink and wire 3 buffered, the code's order buffers wire 2 through `n1` and
makes wire 1 a sink; the reversed order buffers it through `n2`, whose input is already
buffered. -/
theorem propagateLoop_order_dependent :
    (slots inverterPairModule).reverse.Perm (slots inverterPairModule) ∧
      (propagateInverters notTables id inverterPairModule ⟨{.wire 2 0}, {.wire 3 0}⟩).map observe =
        some ({.wire 2 0, .wire 3 0}, {.wire 1 0}) ∧
      (propagateLoop notTables id (fun _ => (slots inverterPairModule).reverse)
          ((slots inverterPairModule).length + 1) 0 ⟨{.wire 2 0}, {.wire 3 0}⟩).map observe =
        some ({.wire 2 0, .wire 3 0}, ∅) :=
  ⟨List.reverse_perm _, by decide, by decide⟩

end SynthesisRepo.Verified
