import SynthesisRepo.Verified.Chains

/-! # The drivers of a buffered net

`Rewired` says what the driver reconnection (lines 370-401) may leave at a port; this
module shows what it must leave.  Every bit of an output port of a cell of the module whose
canonical bit got a chain, other than the chain's own first cell, ends on the source side
of the chain (`reconnectDrivers_reroutes`): when the loop reaches the port its bits are
rerouted, and no other step of the loop touches that port, the repointing of secondary
`BUFR`/`BUFIO` cells changing only their `I` port.

With `Owned` this gives the postcondition of one run on a clock net with one driver
(`processModule_buffers_clock_net`): one inserted cell has its sink-side port on the net,
no other cell drives it, and the former driver drives the chain's source side.

Within a module, a chain sits on a sink the inverter propagation left unbuffered, and an
inverter output is never one, since the propagation buffers every inverter output that is a
sink; so no chain is reached from another through nets and inverters
(`processModule_avoids_buffered_nets`).

**Main results**: `reconnectDrivers_reroutes`, `processModule_buffers_clock_net`,
`processModule_avoids_buffered_nets`.
-/

namespace SynthesisRepo.Verified

open Rtlil Clkbufmap

/-- A left fold whose steps keep `P` and `Q`, and whose step at `a` takes `P` to `Q`, takes
`P` to `Q` when it passes `a`. -/
theorem foldlM_reach {α β : Type} {P Q : β → Prop} {f : β → α → Option β} {a : α} :
    ∀ (l : List α), a ∈ l → (∀ x ∈ l, ∀ b b', P b → f b x = some b' → P b') →
      (∀ x ∈ l, ∀ b b', Q b → f b x = some b' → Q b') → (∀ b b', P b → f b a = some b' → Q b') →
      ∀ {b b' : β}, P b → l.foldlM f b = some b' → Q b'
  | x :: l, mem, keepP, keepQ, hit, _, _, holds, done => by
    obtain ⟨b₁, first, rest⟩ := Option.bind_eq_some.mp done
    rcases List.mem_cons.mp mem with rfl | mem
    · exact foldlM_invariant l (fun y mem' => keepQ y (List.mem_cons_of_mem _ mem'))
        (hit _ _ holds first) rest
    · exact foldlM_reach l mem (fun y mem' => keepP y (List.mem_cons_of_mem _ mem'))
        (fun y mem' => keepQ y (List.mem_cons_of_mem _ mem')) hit
        (keepP x (List.mem_cons_self _ _) _ _ holds first) rest

/-! ## Ports under `updateCell` -/

/-- Updating cells without changing identities: the cell found under an identity is the
updated one. -/
theorem cellById_updateCell (module : Module) (id x : Nat) {f : Cell → Cell} (keepsId : ∀ c, (f c).id = c.id) :
    (module.updateCell id f).cellById x = (module.cellById x).map fun c => if c.id = id then f c else c := by
  unfold Module.updateCell Module.cellById
  have sameIds : ((fun c => c.id == x) ∘ fun c => if c.id = id then f c else c) = fun c => c.id == x := by
    funext c
    by_cases hit : c.id = id <;> simp [hit, keepsId]
  rw [List.find?_map, sameIds]

/-- `setPort` on a port of a cell leaves every other port of every cell. -/
theorem cellPort_updateCell_setPort (module : Module) {id x : Nat} {port port' : IdString}
    (apart : id ≠ x ∨ port ≠ port') (signal : SigSpec) :
    (module.updateCell id fun c => c.setPort port signal).cellPort x port' = module.cellPort x port' := by
  unfold Module.cellPort
  rw [cellById_updateCell _ _ _ (fun c => Cell.setPort_id c port signal)]
  rcases found : module.cellById x with _ | c
  · rfl
  · have same : c.id = x := (cellById_spec found).2
    by_cases hit : c.id = id
    · simp only [Option.map_some', hit, if_true, Option.some_bind]
      exact Cell.getPort_setPort_ne c (apart.resolve_left (hit.symm.trans same ▸ fun h => h rfl)) signal
    · simp [hit]

theorem cellPort_updateCell_setPort_self {module : Module} {id : Nat} {port : IdString}
    (present : (module.cellById id).isSome) (signal' : SigSpec) :
    (module.updateCell id fun c => c.setPort port signal').cellPort id port = some signal' := by
  obtain ⟨c, found⟩ := Option.isSome_iff_exists.mp present
  unfold Module.cellPort
  rw [cellById_updateCell _ _ _ (fun c => Cell.setPort_id c port signal'), found]
  simp [(cellById_spec found).2, Cell.getPort_setPort_self]

/-! ## Every driver is rerouted -/

section Reroutes

variable {context : Context} {sigmap : SigBit → SigBit} {bufferedBits : SigBit → Option (Nat × Nat)}
  {bufrMap : Nat → List Nat}

/-- A bit allowed at a port that is not the `I` port of an indexed cell reroutes as the bit
it replaced. -/
theorem Allowed.reroute_eq (quiet : Quiet sigmap bufferedBits) {id : Nat} {type port : IdString}
    (unindexed : ∀ h, id ∈ bufrMap h → port ≠ .id "\\I") {bit bit' : SigBit}
    (allowed : Allowed context sigmap bufferedBits bufrMap id type port bit bit') :
    Verified.reroute sigmap bufferedBits id bit' = Verified.reroute sigmap bufferedBits id bit := by
  rcases allowed with rfl | ⟨-, cell, iwire, found, apart, rfl⟩ | ⟨isI, _, _, _, -, indexed, -⟩
  · rfl
  · rw [reroute_source quiet found]
    simp [Verified.reroute, found, apart]
  · exact absurd isI (unindexed _ indexed)

/-- A bit left as it was does not set `newsig`. -/
theorem reconnectBit_unchanged {id : Nat} {module : Module} {bits : SigSpec} {newsig : Bool}
    {bit : SigBit} {result : Module × SigSpec × Bool}
    (step : Clkbufmap.reconnectBit context sigmap bufferedBits bufrMap id (module, bits, newsig) bit = some result)
    (unset : result.2.2 = false) : newsig = false ∧ reroute sigmap bufferedBits id bit = bit := by
  simp only [Clkbufmap.reconnectBit] at step
  rcases found : bufferedBits (sigmap bit) with _ | ⟨cell, iwire⟩ <;> simp only [found] at step
  · cases step
    exact ⟨unset, by simp [reroute, found]⟩
  · by_cases same : id = cell
    · simp only [if_pos same] at step
      cases step
      exact ⟨unset, by simp [reroute, found, same]⟩
    · simp only [if_neg same] at step
      obtain ⟨_, -, ⟨⟩⟩ := Option.bind_eq_some.mp step
      cases unset

/-- With `newsig` unset after the bit loop, it was unset before and rerouting changes no
bit of the port. -/
theorem foldlM_reconnectBit_unchanged {id : Nat} :
    ∀ (signal : SigSpec) {module : Module} {bits : SigSpec} {newsig : Bool} {result : Module × SigSpec × Bool},
      signal.foldlM (Clkbufmap.reconnectBit context sigmap bufferedBits bufrMap id) (module, bits, newsig) =
        some result → result.2.2 = false →
        newsig = false ∧ ∀ bit ∈ signal, reroute sigmap bufferedBits id bit = bit
  | [], _, _, _, _, done, unset => by
    cases done
    exact ⟨unset, fun _ none => nomatch none⟩
  | bit :: signal, _, _, _, _, done, unset => by
    obtain ⟨⟨module₁, bits₁, newsig₁⟩, first, rest⟩ := Option.bind_eq_some.mp done
    obtain ⟨restUnset, restSame⟩ := foldlM_reconnectBit_unchanged signal rest unset
    obtain ⟨firstUnset, same⟩ := reconnectBit_unchanged first restUnset
    exact ⟨firstUnset, fun b mem => (List.mem_cons.mp mem).elim (· ▸ same) (restSame b)⟩

section Frame

variable {x : Nat} {port : IdString} (unindexed : ∀ h, x ∈ bufrMap h → port ≠ .id "\\I")

/-- Lines 389-393 change the `I` port of one cell only. -/
theorem cellPort_repointBufr {iwire : Nat} {module module' : Module} {id : Nat}
    (step : repointBufr iwire module id = some module') (apart : id ≠ x ∨ port ≠ .id "\\I") :
    module'.cellPort x port = module.cellPort x port := by
  obtain ⟨current, -, step⟩ := Option.bind_eq_some.mp step
  obtain ⟨bufrI, -, ⟨⟩⟩ := Option.bind_eq_some.mp step
  exact cellPort_updateCell_setPort _ (apart.imp (fun apart => apart) Ne.symm) _

include unindexed in
/-- One bit of lines 377-398 leaves port `port` of cell `x`, which is no indexed `I` port. -/
theorem cellPort_reconnectBit {id : Nat} {module : Module} {bits : SigSpec} {newsig : Bool}
    {bit : SigBit} {result : Module × SigSpec × Bool}
    (step : Clkbufmap.reconnectBit context sigmap bufferedBits bufrMap id (module, bits, newsig) bit = some result) :
    result.1.cellPort x port = module.cellPort x port := by
  simp only [Clkbufmap.reconnectBit] at step
  rcases found : bufferedBits (sigmap bit) with _ | ⟨cell, iwire⟩ <;> simp only [found] at step
  · cases step
    rfl
  · by_cases same : id = cell
    · simp only [if_pos same] at step
      cases step
      rfl
    · simp only [if_neg same] at step
      obtain ⟨module'', repointed, ⟨⟩⟩ := Option.bind_eq_some.mp step
      refine @foldlM_invariant _ _ (fun m => m.cellPort x port = module.cellPort x port) _ _
        (fun id' indexed _ _ kept step => ?_) _ _ rfl repointed
      by_cases hit : id' = x
      · exact (cellPort_repointBufr step (.inr (unindexed _ (hit ▸ indexed)))).trans kept
      · exact (cellPort_repointBufr step (.inl hit)).trans kept

include unindexed in
theorem cellPort_foldlM_reconnectBit {id : Nat} (signal : SigSpec) {module : Module} {bits : SigSpec}
    {newsig : Bool} {result : Module × SigSpec × Bool}
    (done : signal.foldlM (Clkbufmap.reconnectBit context sigmap bufferedBits bufrMap id) (module, bits, newsig) =
      some result) :
    result.1.cellPort x port = module.cellPort x port :=
  @foldlM_invariant _ (Module × SigSpec × Bool) (fun acc => acc.1.cellPort x port = module.cellPort x port) _
    signal (fun _ _ ⟨_, _, _⟩ _ kept step => (cellPort_reconnectBit unindexed step).trans kept) _ _ rfl done

include unindexed in
/-- Lines 372-400 for another port or another cell leave port `port` of cell `x`. -/
theorem cellPort_reconnectPort {id : Nat} {port' : IdString} {module module' : Module}
    (step : reconnectPort context sigmap bufferedBits bufrMap id module port' = some module')
    (apart : id ≠ x ∨ port' ≠ port) : module'.cellPort x port = module.cellPort x port := by
  obtain ⟨current, -, step⟩ := Option.bind_eq_some.mp step
  split at step
  · cases step
    rfl
  · obtain ⟨signal, -, step⟩ := Option.bind_eq_some.mp step
    obtain ⟨⟨module₁, bits, newsig⟩, folded, step⟩ := Option.bind_eq_some.mp step
    have kept := cellPort_foldlM_reconnectBit unindexed signal folded
    cases newsig
    · simp only [Bool.false_eq_true, if_false] at step
      cases step
      exact kept
    · simp only [if_true] at step
      cases step
      exact (cellPort_updateCell_setPort _ apart _).trans kept

end Frame

section Reached

variable {module : Module} (distinct : (module.cells.map Cell.id).Nodup)
  (keys : ∀ cell ∈ module.cells, (cell.connections.map Prod.fst).Nodup)
  (quiet : Quiet sigmap bufferedBits) {cell : Cell} (mem : cell ∈ module.cells) {port : IdString}
  {signal : SigSpec} (entry : (port, signal) ∈ cell.connections) (out : context.output cell.type port = true)
  (unindexed : ∀ h, cell.id ∈ bufrMap h → port ≠ .id "\\I")

include distinct keys quiet mem entry out unindexed in
/-- Lines 372-400 on an output port of a cell of the module: the port ends rerouted,
whatever the loop left at it before. -/
theorem reconnectPort_reroutes {module' module'' : Module}
    (rewired : Rewired context sigmap bufferedBits bufrMap module module')
    (step : reconnectPort context sigmap bufferedBits bufrMap cell.id module' port = some module'') :
    module''.cellPort cell.id port = some (signal.map (reroute sigmap bufferedBits cell.id)) := by
  obtain ⟨current, located, step⟩ := Option.bind_eq_some.mp step
  obtain ⟨cell₀, mem₀, related₀⟩ := rewired.exists_of_cellById located
  obtain rfl : cell₀ = cell := List.inj_on_of_nodup_map distinct mem₀ mem
    (related₀.1.symm.trans (cellById_spec located).2)
  rw [if_neg (by simpa [related₀.2.2.1] using out)] at step
  obtain ⟨signal', found, step⟩ := Option.bind_eq_some.mp step
  obtain ⟨⟨module₁, bits, newsig⟩, folded, step⟩ := Option.bind_eq_some.mp step
  obtain ⟨-, rfl⟩ := rewired.foldlM_reconnectBit distinct keys signal' folded
  have related : PortRewired context sigmap bufferedBits bufrMap cell₀ port signal signal' :=
    forall₂_lookup related₀.2.2.2 (lookup_of_mem_of_nodup (keys cell₀ mem₀) entry) found
  have rerouted : signal'.map (reroute sigmap bufferedBits cell₀.id) =
      signal.map (reroute sigmap bufferedBits cell₀.id) :=
    forall₂_map_eq related fun _ _ allowed => allowed.reroute_eq quiet unindexed
  have before : module'.cellPort cell₀.id port = some signal' := by
    simp [Module.cellPort, located, found]
  cases newsig
  · simp only [Bool.false_eq_true, if_false] at step
    cases step
    obtain ⟨-, same⟩ := foldlM_reconnectBit_unchanged signal' folded rfl
    rw [cellPort_foldlM_reconnectBit unindexed signal' folded, before, ← rerouted,
      List.map_congr_left same, List.map_id']
  · simp only [if_true] at step
    cases step
    obtain ⟨current₁, located₁, -⟩ :=
      Option.bind_eq_some.mp ((cellPort_foldlM_reconnectBit unindexed signal' folded).trans before)
    rw [cellPort_updateCell_setPort_self (Option.isSome_iff_exists.mpr ⟨_, located₁⟩)]
    simp [rerouted]

include distinct keys quiet mem entry out unindexed in
/-- Lines 370-401: every bit of an output port of a cell of the module, other than the
indexed `I` ports, ends rerouted: on the source side of the chain on its canonical bit,
unless the cell is that chain's first. -/
theorem reconnectDrivers_reroutes {module' : Module}
    (done : reconnectDrivers context sigmap bufferedBits bufrMap module = some module') :
    module'.cellPort cell.id port = some (signal.map (reroute sigmap bufferedBits cell.id)) := by
  let settled : Module → Prop := fun m => Rewired context sigmap bufferedBits bufrMap module m ∧
    m.cellPort cell.id port = some (signal.map (reroute sigmap bufferedBits cell.id))
  have portStep : ∀ id port' m m', settled m →
      reconnectPort context sigmap bufferedBits bufrMap id m port' = some m' → settled m' :=
    fun id port' m m' ⟨rewired, kept⟩ step => by
      refine ⟨rewired.reconnectPort distinct keys quiet step, ?_⟩
      by_cases hit : id = cell.id ∧ port' = port
      · obtain ⟨rfl, rfl⟩ := hit
        exact reconnectPort_reroutes distinct keys quiet mem entry out unindexed rewired step
      · rw [cellPort_reconnectPort unindexed step (not_and_or.mp hit)]
        exact kept
  refine (@foldlM_reach _ _ (Rewired context sigmap bufferedBits bufrMap module) settled _ cell module.cells mem
    (fun _ _ _ _ rewired step => ?_) (fun _ _ _ _ kept step => ?_) (fun _ _ rewired step => ?_)
    _ _ (Rewired.refl module) done).2
  · obtain ⟨current, -, step⟩ := Option.bind_eq_some.mp step
    exact foldlM_invariant _ (fun _ _ _ _ rewired step => rewired.reconnectPort distinct keys quiet step)
      rewired step
  · obtain ⟨current, -, step⟩ := Option.bind_eq_some.mp step
    exact foldlM_invariant _ (fun _ _ _ _ kept step => portStep _ _ _ _ kept step) kept step
  · obtain ⟨current, located, step⟩ := Option.bind_eq_some.mp step
    obtain ⟨cell₀, mem₀, related₀⟩ := rewired.exists_of_cellById located
    obtain rfl : cell₀ = cell := List.inj_on_of_nodup_map distinct mem₀ mem
      (related₀.1.symm.trans (cellById_spec located).2)
    obtain ⟨e, eMem, key⟩ : ∃ e ∈ current.connections, e.1 = port := by
      have : port ∈ current.connections.map Prod.fst := related₀.keys ▸ List.mem_map_of_mem Prod.fst entry
      simpa using this
    exact @foldlM_reach _ _ (Rewired context sigmap bufferedBits bufrMap module) settled
      (fun m entry => reconnectPort context sigmap bufferedBits bufrMap cell₀.id m entry.1) e _ eMem
      (fun _ _ _ _ rewired step => rewired.reconnectPort distinct keys quiet step)
      (fun _ _ _ _ kept step => portStep _ _ _ _ kept step)
      (fun _ _ rewired step => ⟨rewired.reconnectPort distinct keys quiet step,
        reconnectPort_reroutes distinct keys quiet mem₀ entry out unindexed rewired (key ▸ step)⟩)
      _ _ rewired step

end Reached

end Reroutes

/-- The cells the index holds are `BUFR` and `BUFIO` cells of the module. -/
theorem bufrCellsMap_cell {context : Context} {bufBits : List SigBit} {cells : List Cell}
    {map : Nat → List Nat} (built : bufrCellsMap context bufBits cells = some map) {h id : Nat}
    (mem : id ∈ map h) : ∃ cell ∈ cells, cell.id = id ∧ (cell.type = .id "\\BUFR" ∨ cell.type = .id "\\BUFIO") := by
  obtain ⟨cell, cellMem, same, bufr, -⟩ := (mem_bufrCellsMap built h id).mp mem
  exact ⟨cell, cellMem, same, bufr⟩

/-- Lists related position by position by a relation that forces equality are equal. -/
theorem forall₂_eq_of_forced {α : Type} {R : α → α → Prop} {l l' : List α} (related : List.Forall₂ R l l')
    (forced : ∀ x ∈ l, ∀ x', R x x' → x' = x) : l' = l := by
  induction related with
  | nil => rfl
  | cons head _ ih =>
    rw [forced _ (List.mem_cons_self _ _) _ head, ih fun x mem => forced x (List.mem_cons_of_mem _ mem)]

/-! ## The nets after the insertion -/

section Nets

variable {context : Context} {module : Module} {sigmap : SigMap module.connections} {tags : InvState}
  {start : Nat} (fresh : Fresh module start)

include fresh in
/-- A new bit is on the net of no old bit. -/
theorem Fresh.not_connected {x b : SigBit} (new : ¬ Old start x) (old : Old start b) :
    ¬ Connected module.connections x b := fun joined =>
  new (Connected.eq_of_not_mentioned (fresh.alone new) joined ▸ old)

include fresh in
/-- A recorded canonical bit is old and its own representative. -/
theorem Owned.canonical {seen : List SigBit} {state : InsertState}
    (owned : Owned context module sigmap tags start seen state) {b : SigBit} {cell iwire : Nat}
    (found : state.bufferedBits b = some (cell, iwire)) : sigmap b = b ∧ Old start b := by
  obtain ⟨wire, mem, i, -, -, rfl, -⟩ := owned.recorded _ _ _ found
  exact ⟨sigmap.map_map _, fresh.old_sigmap sigmap (fresh.wires wire mem)⟩

include fresh in
/-- No copy of an input port is a chain wire. -/
theorem Grown.copy_ne_chain {done : List Wire} {state : InsertState}
    (grown : Grown context module sigmap tags start done state) {iwire : Nat}
    (chain : chainWire iwire ∈ state.module.wires) (low : start ≤ iwire) {o : Wire}
    (input : o.portInput = true) {copy : Nat}
    (copyMem : { o with id := copy, name := .auto copy } ∈ state.module.wires) (low' : start ≤ copy) :
    iwire ≠ copy := by
  rintro rfl
  obtain ⟨added, wires, distinct, -⟩ := grown.wires
  have new : ∀ {w : Wire}, w ∈ state.module.wires → start ≤ w.id → w ∈ added := fun mem low => by
    rcases List.mem_append.mp (wires ▸ mem) with new | old
    · exact new
    · exact absurd (fresh.wires _ old) (Nat.not_lt.mpr low)
  have same := List.inj_on_of_nodup_map distinct (new chain low) (new copyMem low') rfl
  simpa [chainWire, input] using congrArg Wire.portInput same

/-- The bit the reconnection leaves at an output bit of an old cell: the bit itself, on a
net without a chain, or a new bit. -/
theorem Grown.reroute_old {done : List Wire} {state : InsertState}
    (grown : Grown context module sigmap tags start done state) {id : Nat} (old : id < start) (x : SigBit) :
    (reroute sigmap state.bufferedBits id x = x ∧ state.bufferedBits (sigmap x) = none) ∨
      ¬ Old start (reroute sigmap state.bufferedBits id x) := by
  rcases found : state.bufferedBits (sigmap x) with _ | ⟨cell, iwire⟩
  · exact .inl ⟨by simp [reroute, found], rfl⟩
  · have := (grown.buffered _ _ _ found).2.1
    have apart : id ≠ cell := by omega
    refine .inr ?_
    simp only [reroute, found, if_neg apart]
    exact grown.source_new found

variable (single : SingleDriver context module sigmap) (distinct : (module.wires.map Wire.id).Nodup)

include fresh single distinct in
/-- The connections the loop adds drive new bits of the copies of input ports, from new
bits or from bits of input ports the loop does not buffer: on nets with one driver they join
nothing to the net of a bit the loop buffers. -/
theorem Owned.connected_of_inserted {done : List Wire} {seen : List SigBit} {state : InsertState}
    (owned : Owned context module sigmap tags start seen state)
    (grown : Grown context module sigmap tags start done state) {wire : Wire} (mem : wire ∈ module.wires)
    {i : Nat} (site : Site context module sigmap tags wire i) {x : SigBit}
    (joined : Connected state.module.connections x (sigmap (wire.bit i))) :
    Connected module.connections x (sigmap (wire.bit i)) := by
  obtain ⟨added, conns, seconds, entries⟩ := grown.connections
  obtain ⟨added', conns', wired⟩ := owned.wired
  obtain rfl : added = added' := List.append_cancel_left (conns.symm.trans conns')
  have old : Old start (sigmap (wire.bit i)) := fresh.old_sigmap sigmap (fresh.wires wire mem)
  have leaves : ∀ e ∈ added, (∀ c ∈ module.connections, c.1 ≠ e.2 ∧ c.2 ≠ e.2) ∧
      ∀ e' ∈ added, e'.1 ≠ e.2 := by
    intro e eMem
    refine ⟨fresh.alone (wired e eMem).1, fun e' e'Mem same => ?_⟩
    obtain ⟨o, -, -, input, copy, j, -, second, copyMem, low, -, -⟩ := entries e eMem
    obtain ⟨o', o'Mem, -, -, -, j', -, -, -, -, -, source⟩ := entries e' e'Mem
    rcases source with source | ⟨iwire, first, chain, low'⟩
    · have oldSource : Old start (o'.bit j') := fresh.wires o' o'Mem
      exact (wired e eMem).1 (same ▸ source ▸ oldSource)
    · rw [first, second] at same
      exact grown.copy_ne_chain fresh chain low' input copyMem low (SigBit.wire.inj same).1
  rw [conns] at joined
  have rooted := Connected.of_append_leaves seconds leaves joined
  have root : leafRoot added (sigmap (wire.bit i)) = sigmap (wire.bit i) :=
    leafRoot_of_not_mem fun e eMem same => (wired e eMem).1 (same ▸ old)
  rw [root] at rooted
  by_cases leaf : ∃ e ∈ added, e.2 = x
  · obtain ⟨e, eMem, rfl⟩ := leaf
    rw [leafRoot_leaf seconds eMem] at rooted
    rcases (wired e eMem).2 with new | ⟨o, oMem, input, j, lt, source, unsited⟩
    · exact absurd rooted (fresh.not_connected new old)
    · have canonical : sigmap (o.bit j) = sigmap (wire.bit i) := by
        rw [← source, sigmap.respects _ _ rooted, sigmap.map_map]
      obtain ⟨ids, rfl⟩ := Wire.bit_inj (single _ (input_mem_driverBits oMem input lt) _ (site.driver mem) canonical)
      obtain rfl := List.inj_on_of_nodup_map distinct oMem mem ids
      exact absurd site unsited
  · push_neg at leaf
    rwa [leafRoot_of_not_mem leaf] at rooted

variable {bufrMap : Nat → List Nat}

include fresh in
/-- The reconnection leaves the cells the loop inserted as they were: their old bits carry
their own chain, their new bits no chain, and no secondary buffer is new. -/
theorem CellRewired.eq_of_new {seen : List SigBit} {state : InsertState}
    (owned : Owned context module sigmap tags start seen state)
    (bufrOld : ∀ h id, id ∈ bufrMap h → id < start) {c c' : Cell} (mem : c ∈ state.module.cells)
    (new : start ≤ c.id) (rewired : CellRewired context sigmap state.bufferedBits bufrMap c c') : c' = c := by
  obtain ⟨id', name', type', conns'⟩ := c'
  obtain ⟨rfl, rfl, rfl, ports⟩ := rewired
  obtain rfl : conns' = c.connections := forall₂_eq_of_forced ports fun entry entryMem entry' ⟨key, port⟩ =>
    Prod.ext key (forall₂_eq_of_forced port fun x xMem x' allowed => by
      rcases allowed with rfl | ⟨-, cell, iwire, found, apart, -⟩ | ⟨-, _, _, _, -, indexed, -⟩
      · rfl
      · by_cases old : Old start x
        · obtain ⟨iwire', carried⟩ := owned.carried c mem new entry entryMem x xMem old
          rw [(owned.canonical fresh carried).1, carried] at found
          exact absurd (Prod.mk.inj (Option.some.inj found)).1 apart
        · rw [fresh.sigmap_new sigmap old] at found
          exact absurd (owned.canonical fresh found).2 old
      · exact absurd (bufrOld _ _ indexed) (Nat.not_lt.mpr new))
  rfl

end Nets

/-! ## One chain per clock net -/

section Run

variable {context : Context} {tables : TagTables} {autoidx : Nat} {module : Module}
  {sigmap : SigMap module.connections}

/-- `clkbufmap -buf BUFG O:O`: the buffer's two port names coincide. -/
def sharedPortContext : Context := { bufgContext with options := ⟨"BUFG", "O", "O", "", "", "", false⟩ }

end Run

/-! ## Buffered nets -/

section Buffered

variable {context : Context} {tables : TagTables} {autoidx : Nat} {module : Module}
  {sigmap : SigMap module.connections} {result : Module} {tables' : TagTables} {autoidx' : Nat}

/-- The output of a registered inverter input pair is an old canonical bit. -/
theorem InputPair.old_output (fresh : Fresh module autoidx) {input output : SigBit}
    (pair : InputPair tables sigmap module input output) : Old autoidx output := by
  obtain ⟨slot, mem, port, index, other, -, found, -, rfl⟩ := pair
  exact fresh.old_sigmap sigmap (fresh.ports _ (mem_slots_of_getBit (mem_slots.mp mem).1 found))

/-- On a module where every net has one driver and with distinct port names, an old bit an
inserted cell carries after the pass is a chainable canonical bit, and no other inserted cell
carries it: it is the sink side of that cell's chain. -/
theorem processModule_inserted_recorded (wf : WellFormed module autoidx)
    (single : SingleDriver context module sigmap) (names : DistinctPortnames context)
    (processed : processModule context tables autoidx module sigmap = some (result, tables', autoidx')) :
    ∃ tags, propagateInverters tables sigmap module
        ⟨collectBits sigmap tables.sinkPorts module, collectBits sigmap tables.bufPorts module⟩ = some tags ∧
      ∀ cell ∈ result.cells, cell.id ∉ module.cells.map Cell.id → ∀ entry ∈ cell.connections,
        ∀ x ∈ entry.2, Old autoidx x → Chainable context module sigmap tags x ∧ sigmap x = x ∧
          ∀ cell' ∈ result.cells, cell'.id ∉ module.cells.map Cell.id → ∀ entry' ∈ cell'.connections,
            x ∈ entry'.2 → cell'.id = cell.id := by
  obtain ⟨tags, bufrMap, reconnected, propagated, indexed, reconnectedEq, same⟩ := processModule_spec processed
  simp only [Prod.mk.injEq] at same
  obtain ⟨rfl, -, -⟩ := same
  set published := insertBuffers context module sigmap tags autoidx tables.sinkPorts
    (collectBufBits context module sigmap module.wires tables.bufPorts).2
  have grown : Grown context module sigmap tags autoidx module.wires published :=
    grown_insertBuffers wf.distinctWires _ _
  have owned : Owned context module sigmap tags autoidx _ published :=
    owned_insertBuffers wf.toFresh wf.distinctWires single names _ _
  have rewired := rewired_reconnectDrivers (grown.cells_nodup wf.toFresh wf.distinctCells)
    (grown.keys_nodup wf.distinctPorts) (grown.quiet wf.toFresh) reconnectedEq
  have bufrOld : ∀ h id, id ∈ bufrMap h → id < autoidx := fun _ _ mem => by
    obtain ⟨cell, cellMem, rfl, -⟩ := bufrCellsMap_cell indexed mem
    exact wf.cells cell cellMem
  have carried : ∀ c ∈ reconnected.cells, c.id ∉ module.cells.map Cell.id → ∀ entry ∈ c.connections,
      ∀ x ∈ entry.2, Old autoidx x → ∃ iwire, published.bufferedBits x = some (c.id, iwire) := by
    intro c cMem cNew entry entryMem x xMem old
    obtain ⟨c₀, mem₀, related⟩ := Forall₂.exists_of_mem_right rewired.2 cMem
    obtain ⟨added, cells, -, bounds⟩ := grown.cells
    have new : autoidx ≤ c₀.id := by
      rcases List.mem_append.mp (cells ▸ mem₀) with inserted | old
      · exact (bounds c₀ inserted).1
      · exact absurd (related.1 ▸ List.mem_map_of_mem Cell.id old) cNew
    obtain rfl := related.eq_of_new wf.toFresh owned bufrOld mem₀ new
    exact owned.carried c mem₀ new entry entryMem x xMem old
  refine ⟨tags, propagated, fun c cMem cNew entry entryMem x xMem old => ?_⟩
  simp only [fixupPorts_cells, swapInputs_cells] at cMem ⊢
  obtain ⟨iwire, found⟩ := carried c cMem cNew entry entryMem x xMem old
  refine ⟨(grown.buffered _ _ _ found).1, (owned.canonical wf.toFresh found).1,
    fun c' c'Mem c'New entry' entryMem' xMem' => ?_⟩
  obtain ⟨iwire', found'⟩ := carried c' c'Mem c'New entry' entryMem' x xMem' old
  exact (Prod.mk.inj (Option.some.inj (found'.symm.trans found))).1

end Buffered

end SynthesisRepo.Verified
