import SynthesisRepo.Clkbufmap.Reconnect

/-! # What the driver reconnection changes

The driver reconnection (lines 370-401) changes port bits of cells and nothing else, and
a bit in one of two ways only: a bit of an output port whose canonical bit got a buffer
moves to the wire on the buffer's source side (`reroute`), and every bit of the `I` port
of a `BUFR`/`BUFIO` cell of the index becomes such a wire.  `Rewired` says so of a whole
module against the module before, position by position; every step of the three nested
loops keeps it, and so does the whole reconnection (`rewired_reconnectDrivers`).
-/

namespace SynthesisRepo.Verified

open Rtlil Clkbufmap

/-! ## Lists related position by position -/

theorem forall₂_map_right_of_mem {α β : Type} {R R' : α → β → Prop} {g : β → β} :
    ∀ {l : List α} {l' : List β}, List.Forall₂ R l l' → (∀ a ∈ l, ∀ b ∈ l', R a b → R' a (g b)) →
      List.Forall₂ R' l (l'.map g)
  | _, _, .nil, _ => .nil
  | _, _, .cons head tail, step =>
    .cons (step _ (List.mem_cons_self _ _) _ (List.mem_cons_self _ _) head)
      (forall₂_map_right_of_mem tail fun a mem b mem' =>
        step a (List.mem_cons_of_mem _ mem) b (List.mem_cons_of_mem _ mem'))

theorem Forall₂.exists_of_mem_right {α β : Type} {R : α → β → Prop} {l : List α} {l' : List β}
    (related : List.Forall₂ R l l') {b : β} (mem : b ∈ l') : ∃ a ∈ l, R a b := by
  induction related with
  | nil => cases mem
  | cons head _ ih =>
    rcases List.mem_cons.mp mem with rfl | mem
    · exact ⟨_, List.mem_cons_self _ _, head⟩
    · obtain ⟨a, mem, r⟩ := ih mem
      exact ⟨a, List.mem_cons_of_mem _ mem, r⟩

theorem Forall₂.exists_of_mem_left {α β : Type} {R : α → β → Prop} {l : List α} {l' : List β}
    (related : List.Forall₂ R l l') {a : α} (mem : a ∈ l) : ∃ b ∈ l', R a b := by
  induction related with
  | nil => cases mem
  | cons head _ ih =>
    rcases List.mem_cons.mp mem with rfl | mem
    · exact ⟨_, List.mem_cons_self _ _, head⟩
    · obtain ⟨b, mem, r⟩ := ih mem
      exact ⟨b, List.mem_cons_of_mem _ mem, r⟩

/-- What sits at a position of one of two related lists is related to what sits there in
the other. -/
theorem Forall₂.get? {α β : Type} {R : α → β → Prop} {l : List α} {l' : List β}
    (related : List.Forall₂ R l l') {k : Nat} {a : α} (found : l.get? k = some a) :
    ∃ b, l'.get? k = some b ∧ R a b := by
  induction related generalizing k with
  | nil => cases found
  | cons head _ ih =>
    cases k with
    | zero => exact ⟨_, rfl, Option.some_inj.mp found ▸ head⟩
    | succ k => exact ih found

/-- Lists related position by position have the same images under maps that agree on
related elements. -/
theorem forall₂_map_eq {α β γ : Type} {R : α → β → Prop} {f : α → γ} {g : β → γ} {l : List α}
    {l' : List β} (related : List.Forall₂ R l l') (same : ∀ a b, R a b → g b = f a) :
    l'.map g = l.map f := by
  induction related with
  | nil => rfl
  | cons head _ ih => simp [same _ _ head, ih]

section Ports

variable {β : Type} {S : IdString → β → β → Prop}

/-- Two port lists with the same keys, position by position: what `lookup` finds in
each is related. -/
theorem forall₂_lookup {l l' : List (IdString × β)}
    (related : List.Forall₂ (fun e e' => e'.1 = e.1 ∧ S e.1 e.2 e'.2) l l') {port : IdString}
    {value value' : β} (found : l.lookup port = some value) (found' : l'.lookup port = some value') :
    S port value value' := by
  induction related with
  | nil => cases found
  | @cons e e' _ _ head _ ih =>
    obtain ⟨key, v⟩ := e
    obtain ⟨key', v'⟩ := e'
    obtain ⟨rfl, head⟩ := head
    by_cases hit : port = key'
    · subst hit
      simp only [List.lookup_cons_self, Option.some_inj] at found found'
      exact found ▸ found' ▸ head
    · have miss : (port == key') = false := by simpa using hit
      simp only [List.lookup_cons, miss] at found found'
      exact ih found found'

end Ports

/-- An invariant of every step of a fallible left fold holds of its result. -/
theorem foldlM_invariant {α β : Type} {P : β → Prop} {f : β → α → Option β} :
    ∀ (l : List α), (∀ a ∈ l, ∀ b b', P b → f b a = some b' → P b') →
      ∀ {b b' : β}, P b → l.foldlM f b = some b' → P b'
  | [], _, _, _, holds, done => Option.some_inj.mp done ▸ holds
  | a :: l, step, _, _, holds, done => by
    obtain ⟨b₁, first, rest⟩ := Option.bind_eq_some.mp done
    exact foldlM_invariant l (fun a mem => step a (List.mem_cons_of_mem _ mem))
      (step a (List.mem_cons_self _ _) _ b₁ holds first) rest

/-- A monadic fold returns, keeping an invariant, when every step from a state with the
invariant returns a state with it. -/
theorem foldlM_progress {α β : Type} {P : β → Prop} {f : β → α → Option β} :
    ∀ (l : List α), (∀ a ∈ l, ∀ b, P b → ∃ b', f b a = some b' ∧ P b') →
      ∀ b, P b → ∃ b', l.foldlM f b = some b' ∧ P b'
  | [], _, b, holds => ⟨b, rfl, holds⟩
  | a :: l, step, b, holds => by
    obtain ⟨b₁, first, holds₁⟩ := step a (List.mem_cons_self _ _) b holds
    obtain ⟨b', rest, holds'⟩ :=
      foldlM_progress l (fun a mem => step a (List.mem_cons_of_mem _ mem)) b₁ holds₁
    exact ⟨b', by simp only [List.foldlM_cons, first]; exact rest, holds'⟩

section Rewiring

variable (context : Context) (sigmap : SigBit → SigBit)
  (bufferedBits : SigBit → Option (Nat × Nat)) (bufrMap : Nat → List Nat)

/-- The bit that line 396 leaves at a bit of an output port of cell `id`. -/
def reroute (id : Nat) (bit : SigBit) : SigBit :=
  match bufferedBits (sigmap bit) with
  | some (cell, iwire) => if id = cell then bit else .wire iwire 0
  | none => bit

/-- What the reconnection may leave at a position of port `port` of cell `id` of type
`type` where the module had `bit`: the bit itself; the source-side wire of the buffer on
its canonical bit, on an output port of a cell other than that buffer; or, on the `I`
port of a cell indexed under the hash of a buffered canonical bit, the source-side wire of
that bit's buffer. -/
def Allowed (id : Nat) (type port : IdString) (bit bit' : SigBit) : Prop :=
  bit' = bit ∨
    (context.output type port = true ∧ ∃ cell iwire, bufferedBits (sigmap bit) = some (cell, iwire) ∧
      id ≠ cell ∧ bit' = .wire iwire 0) ∨
    (port = .id "\\I" ∧ ∃ b cell iwire, bufferedBits b = some (cell, iwire) ∧ id ∈ bufrMap (context.hash b) ∧
      bit' = .wire iwire 0)

/-- A port of `cell` after the reconnection: as many bits, each allowed. -/
def PortRewired (cell : Cell) (port : IdString) (signal signal' : SigSpec) : Prop :=
  List.Forall₂ (Allowed context sigmap bufferedBits bufrMap cell.id cell.type port) signal signal'

/-- A cell after the reconnection: the same cell with the same ports in the same order,
each rewired. -/
def CellRewired (cell cell' : Cell) : Prop :=
  cell'.id = cell.id ∧ cell'.name = cell.name ∧ cell'.type = cell.type ∧
    List.Forall₂ (fun entry entry' => entry'.1 = entry.1 ∧
      PortRewired context sigmap bufferedBits bufrMap cell entry.1 entry.2 entry'.2)
      cell.connections cell'.connections

/-- A module after some of the reconnection: only cells changed, each rewired in place. -/
def Rewired (module module' : Module) : Prop :=
  module' = { module with cells := module'.cells } ∧
    List.Forall₂ (CellRewired context sigmap bufferedBits bufrMap) module.cells module'.cells

end Rewiring

section Steps

variable {context : Context} {sigmap : SigBit → SigBit}
  {bufferedBits : SigBit → Option (Nat × Nat)} {bufrMap : Nat → List Nat}

/-- A source-side wire of the loop is on no buffered canonical bit. -/
def Quiet (sigmap : SigBit → SigBit) (bufferedBits : SigBit → Option (Nat × Nat)) : Prop :=
  ∀ b cell iwire, bufferedBits b = some (cell, iwire) → bufferedBits (sigmap (.wire iwire 0)) = none

theorem reroute_source (quiet : Quiet sigmap bufferedBits) {b : SigBit} {cell iwire : Nat}
    (found : bufferedBits b = some (cell, iwire)) (id : Nat) :
    reroute sigmap bufferedBits id (.wire iwire 0) = .wire iwire 0 := by
  simp [reroute, quiet b cell iwire found]

/-- Rerouting an allowed bit of an output port leaves an allowed bit. -/
theorem Allowed.reroute (quiet : Quiet sigmap bufferedBits) {id : Nat} {type port : IdString}
    (out : context.output type port = true) {bit bit' : SigBit}
    (allowed : Allowed context sigmap bufferedBits bufrMap id type port bit bit') :
    Allowed context sigmap bufferedBits bufrMap id type port bit
      (Verified.reroute sigmap bufferedBits id bit') := by
  rcases allowed with rfl | ⟨_, cell, iwire, found, _, rfl⟩ | ⟨_, b, cell, iwire, found, _, rfl⟩
  · unfold Verified.reroute
    rcases found : bufferedBits (sigmap bit') with _ | ⟨cell, iwire⟩
    · exact .inl rfl
    · by_cases same : id = cell
      · simp only [if_pos same]; exact .inl rfl
      · simp only [if_neg same]; exact .inr (.inl ⟨out, cell, iwire, found, same, rfl⟩)
  · rw [reroute_source quiet found]
    exact .inr (.inl ⟨out, cell, iwire, found, ‹_›, rfl⟩)
  · rw [reroute_source quiet found]
    exact .inr (.inr ⟨‹_›, b, cell, iwire, found, ‹_›, rfl⟩)

theorem CellRewired.refl (cell : Cell) : CellRewired context sigmap bufferedBits bufrMap cell cell :=
  ⟨rfl, rfl, rfl, List.forall₂_same.mpr fun _ _ => ⟨rfl, List.forall₂_same.mpr fun _ _ => .inl rfl⟩⟩

theorem CellRewired.keys {cell cell' : Cell} (rewired : CellRewired context sigmap bufferedBits bufrMap cell cell') :
    cell'.connections.map Prod.fst = cell.connections.map Prod.fst :=
  forall₂_map_eq rewired.2.2.2 fun _ _ related => related.1

/-- `setPort` on a connected port with bits allowed against the module before. -/
theorem CellRewired.setPort {cell cell' : Cell} (rewired : CellRewired context sigmap bufferedBits bufrMap cell cell')
    {port : IdString} (present : (cell'.getPort port).isSome) {bits : SigSpec}
    (allowed : ∀ entry ∈ cell.connections, entry.1 = port →
      PortRewired context sigmap bufferedBits bufrMap cell port entry.2 bits) :
    CellRewired context sigmap bufferedBits bufrMap cell (cell'.setPort port bits) := by
  obtain ⟨id, name, type, entries⟩ := rewired
  refine ⟨id, name, type, ?_⟩
  simp only [Cell.setPort, present, if_true]
  refine forall₂_map_right_of_mem entries fun entry mem entry' _ related => ?_
  by_cases hit : entry'.1 = port
  · have key : entry.1 = port := related.1.symm.trans hit
    simp only [if_pos hit]
    exact ⟨key.symm, key ▸ allowed entry mem key⟩
  · simpa only [if_neg hit] using related

/-- A port connected in one of two port lists with the same keys is connected in the other. -/
theorem lookup_isSome_of_keys {β : Type} {l l' : List (IdString × β)}
    (keys : l'.map Prod.fst = l.map Prod.fst) {port : IdString} (found : (l.lookup port).isSome) :
    (l'.lookup port).isSome := by
  simp only [List.lookup_isSome_iff, beq_iff_eq] at found ⊢
  obtain ⟨entry, mem, rfl⟩ := found
  obtain ⟨entry', mem', same⟩ := List.mem_map.mp (keys ▸ List.mem_map_of_mem Prod.fst mem)
  exact ⟨entry', mem', same.symm⟩

theorem cellById_spec {module : Module} {id : Nat} {cell : Cell} (found : module.cellById id = some cell) :
    cell ∈ module.cells ∧ cell.id = id :=
  ⟨List.mem_of_find?_eq_some found, by simpa using List.find?_some found⟩

/-- With distinct identities, a cell is found under its identity. -/
theorem cellById_of_mem {module : Module} (distinct : (module.cells.map Cell.id).Nodup) {cell : Cell}
    (mem : cell ∈ module.cells) : module.cellById cell.id = some cell := by
  have present : (module.cellById cell.id).isSome := List.find?_isSome.mpr ⟨cell, mem, by simp⟩
  obtain ⟨found, hfound⟩ := Option.isSome_iff_exists.mp present
  obtain ⟨foundMem, same⟩ := cellById_spec hfound
  rwa [List.inj_on_of_nodup_map distinct foundMem mem same] at hfound

theorem Rewired.refl (module : Module) : Rewired context sigmap bufferedBits bufrMap module module :=
  ⟨rfl, List.forall₂_same.mpr fun cell _ => CellRewired.refl cell⟩

theorem Rewired.ids {module module' : Module} (rewired : Rewired context sigmap bufferedBits bufrMap module module') :
    module'.cells.map Cell.id = module.cells.map Cell.id :=
  forall₂_map_eq rewired.2 fun _ _ related => related.1

/-- A cell of a rewired module is rewired from a cell of the module before. -/
theorem Rewired.exists_of_cellById {module module' : Module}
    (rewired : Rewired context sigmap bufferedBits bufrMap module module') {id : Nat} {current : Cell}
    (found : module'.cellById id = some current) :
    ∃ cell ∈ module.cells, CellRewired context sigmap bufferedBits bufrMap cell current :=
  Forall₂.exists_of_mem_right rewired.2 (cellById_spec found).1

/-- A cell identity of the module before is found in a rewired module. -/
theorem Rewired.cellById_isSome {module module' : Module}
    (rewired : Rewired context sigmap bufferedBits bufrMap module module') {id : Nat}
    (mem : id ∈ module.cells.map Cell.id) : ∃ current, module'.cellById id = some current := by
  rw [← rewired.ids] at mem
  obtain ⟨cell, present, rfl⟩ := List.mem_map.mp mem
  exact Option.isSome_iff_exists.mp (List.find?_isSome.mpr ⟨cell, present, by simp⟩)

section Distinct

variable {module : Module} (distinct : (module.cells.map Cell.id).Nodup)
  (keys : ∀ cell ∈ module.cells, (cell.connections.map Prod.fst).Nodup)

include distinct in
/-- Updating the cell found under `id` keeps a rewired module rewired when the update
keeps that cell rewired. -/
theorem Rewired.updateCell {module' : Module}
    (rewired : Rewired context sigmap bufferedBits bufrMap module module') {id : Nat} {current : Cell}
    (found : module'.cellById id = some current) {f : Cell → Cell}
    (step : ∀ cell ∈ module.cells, CellRewired context sigmap bufferedBits bufrMap cell current →
      CellRewired context sigmap bufferedBits bufrMap cell (f current)) :
    Rewired context sigmap bufferedBits bufrMap module (module'.updateCell id f) := by
  obtain ⟨mem, same⟩ := cellById_spec found
  have distinct' : (module'.cells.map Cell.id).Nodup := rewired.ids ▸ distinct
  refine ⟨by rw [rewired.1]; rfl, forall₂_map_right_of_mem rewired.2 fun cell mem' c memc related => ?_⟩
  by_cases hit : c.id = id
  · obtain rfl : c = current := List.inj_on_of_nodup_map distinct' memc mem (hit.trans same.symm)
    simpa only [if_pos hit] using step cell mem' related
  · simpa only [if_neg hit] using related

include distinct keys in
/-- Lines 389-393 keep a rewired module rewired: the cell repointed is indexed under the
hash of a buffered canonical bit, and the wire it is repointed to is that bit's buffer's
source side. -/
theorem Rewired.repointBufr {module' module'' : Module}
    (rewired : Rewired context sigmap bufferedBits bufrMap module module') {id : Nat} {b : SigBit}
    (indexed : id ∈ bufrMap (context.hash b)) {cell₀ iwire : Nat}
    (found : bufferedBits b = some (cell₀, iwire))
    (repointed : repointBufr iwire module' id = some module'') :
    Rewired context sigmap bufferedBits bufrMap module module'' := by
  obtain ⟨current, located, repointed⟩ := Option.bind_eq_some.mp repointed
  obtain ⟨bufrI, hI, ⟨⟩⟩ := Option.bind_eq_some.mp repointed
  refine rewired.updateCell distinct located fun cell mem related =>
    related.setPort (Option.isSome_iff_exists.mpr ⟨_, hI⟩) ?_
  rintro ⟨port, signal⟩ mem' (rfl : port = _)
  have sameId : cell.id = id := related.1.symm.trans (cellById_spec located).2
  refine List.forall₂_map_right_iff.mpr ((forall₂_lookup related.2.2.2
    (lookup_of_mem_of_nodup (keys cell mem) mem') hI).imp fun _ _ _ =>
      .inr (.inr ⟨rfl, b, cell₀, iwire, found, sameId ▸ indexed, rfl⟩))

include distinct keys in
/-- One bit of lines 377-398: the module stays rewired, and the bit left is `reroute`'s. -/
theorem Rewired.reconnectBit {module' : Module}
    (rewired : Rewired context sigmap bufferedBits bufrMap module module') {id : Nat} {bits : SigSpec}
    {newsig : Bool} {bit : SigBit} {result : Module × SigSpec × Bool}
    (step : Clkbufmap.reconnectBit context sigmap bufferedBits bufrMap id (module', bits, newsig) bit =
      some result) :
    Rewired context sigmap bufferedBits bufrMap module result.1 ∧
      result.2.1 = bits ++ [reroute sigmap bufferedBits id bit] := by
  simp only [Clkbufmap.reconnectBit] at step
  rcases found : bufferedBits (sigmap bit) with _ | ⟨cell₀, iwire⟩ <;> simp only [found] at step
  · cases step
    exact ⟨rewired, by simp [reroute, found]⟩
  · by_cases same : id = cell₀
    · simp only [if_pos same] at step
      cases step
      exact ⟨rewired, by simp [reroute, found, same]⟩
    · simp only [if_neg same] at step
      obtain ⟨module'', repointed, ⟨⟩⟩ := Option.bind_eq_some.mp step
      exact ⟨foldlM_invariant _ (fun _ mem _ _ rewired step => rewired.repointBufr distinct keys mem found step)
        rewired repointed, by simp [reroute, found, same]⟩

include distinct keys in
/-- The bit loop of one port: the module stays rewired, and the bits left are the
port's bits rerouted. -/
theorem Rewired.foldlM_reconnectBit {id : Nat} :
    ∀ (signal : SigSpec) {module' : Module} {bits : SigSpec} {newsig : Bool}
      {result : Module × SigSpec × Bool}, Rewired context sigmap bufferedBits bufrMap module module' →
      signal.foldlM (Clkbufmap.reconnectBit context sigmap bufferedBits bufrMap id) (module', bits, newsig) =
        some result →
      Rewired context sigmap bufferedBits bufrMap module result.1 ∧
        result.2.1 = bits ++ signal.map (reroute sigmap bufferedBits id)
  | [], _, _, _, _, rewired, done => by
    cases done
    exact ⟨rewired, by simp⟩
  | bit :: signal, _, _, _, _, rewired, done => by
    obtain ⟨⟨module'', bits', newsig'⟩, first, rest⟩ := Option.bind_eq_some.mp done
    obtain ⟨rewired', rfl⟩ := rewired.reconnectBit distinct keys first
    obtain ⟨rewired'', bits''⟩ := Rewired.foldlM_reconnectBit signal rewired' rest
    exact ⟨rewired'', by simp [bits'']⟩

include distinct keys in
/-- Lines 372-400 for one port keep a rewired module rewired. -/
theorem Rewired.reconnectPort (quiet : Quiet sigmap bufferedBits) {module' module'' : Module}
    (rewired : Rewired context sigmap bufferedBits bufrMap module module') {id : Nat} {port : IdString}
    (step : Clkbufmap.reconnectPort context sigmap bufferedBits bufrMap id module' port = some module'') :
    Rewired context sigmap bufferedBits bufrMap module module'' := by
  obtain ⟨current, located, step⟩ := Option.bind_eq_some.mp step
  by_cases out : context.output current.type port = true
  · rw [if_neg (by simpa using out)] at step
    obtain ⟨signal, hs, step⟩ := Option.bind_eq_some.mp step
    obtain ⟨⟨module₁, bits, newsig⟩, folded, step⟩ := Option.bind_eq_some.mp step
    obtain ⟨rewired₁, rfl⟩ := rewired.foldlM_reconnectBit distinct keys signal folded
    obtain ⟨cell₀, mem₀, related₀⟩ := rewired.exists_of_cellById located
    have sameId : cell₀.id = id := related₀.1.symm.trans (cellById_spec located).2
    have allowed : ∀ entry ∈ cell₀.connections, entry.1 = port → PortRewired context sigmap bufferedBits
        bufrMap cell₀ port entry.2 (signal.map (reroute sigmap bufferedBits id)) := by
      rintro ⟨port', signal₀⟩ mem (rfl : port' = port)
      refine List.forall₂_map_right_iff.mpr ((forall₂_lookup related₀.2.2.2
        (lookup_of_mem_of_nodup (keys cell₀ mem₀) mem) hs).imp fun _ _ allowed => ?_)
      exact sameId ▸ allowed.reroute quiet (related₀.2.2.1 ▸ out)
    cases newsig
    · simp only [Bool.false_eq_true, if_false] at step
      cases step
      exact rewired₁
    · simp only [if_true] at step
      cases step
      obtain ⟨current₁, located₁⟩ := rewired₁.cellById_isSome (sameId ▸ List.mem_map_of_mem Cell.id mem₀)
      refine rewired₁.updateCell distinct located₁ fun cell mem related => ?_
      obtain rfl : cell = cell₀ := List.inj_on_of_nodup_map distinct mem mem₀
        (by rw [← related.1, (cellById_spec located₁).2, sameId])
      exact related.setPort (lookup_isSome_of_keys (related.keys.trans related₀.keys.symm)
        (Option.isSome_iff_exists.mpr ⟨_, hs⟩)) allowed
  · rw [if_pos (by simpa using out)] at step
    cases step
    exact rewired

include distinct keys in
/-- The whole reconnection, lines 370-401, leaves the module rewired. -/
theorem rewired_reconnectDrivers (quiet : Quiet sigmap bufferedBits) {module' : Module}
    (done : reconnectDrivers context sigmap bufferedBits bufrMap module = some module') :
    Rewired context sigmap bufferedBits bufrMap module module' :=
  foldlM_invariant module.cells (fun _ _ _ _ rewired step => by
      obtain ⟨current, _, step⟩ := Option.bind_eq_some.mp step
      exact foldlM_invariant current.connections
        (fun _ _ _ _ rewired step => rewired.reconnectPort distinct keys quiet step) rewired step)
    (Rewired.refl module) done

end Distinct

end Steps

end SynthesisRepo.Verified
