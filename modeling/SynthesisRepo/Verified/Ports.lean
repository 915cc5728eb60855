import SynthesisRepo.Verified.ModulePass
import Mathlib.Data.List.Sort

/-! # Ports across the pass

The pass rebuilds an input port whose bits it buffered: a copy of the wire takes over the
port (lines 337-354), the two wires exchange their names, the old wire stops being a port
(lines 404-411), and `fixup_ports` recomputes the port list (line 413).

`Renamed` says, wire by wire, what the renaming does; every entry of `input_queue` keeps
it (`forall₂_swapInputs`).  Since the copy has the port id, width and directions of the
old wire and the old wire is no port any more, the port wires after the renaming have the
port ids and names of the port wires before (`swapped_port`, `port_swapped`), and
`fixup_ports`, which sorts port wires by port id, lists the same names in the same order
(`fixupPorts_ports_eq`).

**Main result**: `processModule_keeps_ports`.
-/

namespace SynthesisRepo.Verified

open Rtlil Clkbufmap

/-! ## The order of `fixup_ports` -/

theorem portBefore_trans (a b c : Wire) :
    Module.portBefore a b → Module.portBefore b c → Module.portBefore a c := by
  unfold Module.portBefore
  cases a.portId <;> cases b.portId <;> cases c.portId <;> simp
  omega

theorem portBefore_total (a b : Wire) : (Module.portBefore a b || Module.portBefore b a) = true := by
  unfold Module.portBefore
  cases a.portId <;> cases b.portId <;> simp
  omega

/-- What `fixup_ports` reads of a port wire to order and list it. -/
def portView (wire : Wire) : Nat × IdString := (wire.portId, wire.name)

/-- Port wires with distinct port ids are listed in one order only: two lists with the
same port ids and names give the same sorted list of them. -/
theorem mergeSort_portView_eq {l l' : List Wire} (distinct : (l.map Wire.portId).Nodup)
    (perm : (l.map portView).Perm (l'.map portView)) :
    (l.mergeSort Module.portBefore).map portView = (l'.mergeSort Module.portBefore).map portView := by
  let before : Nat × IdString → Nat × IdString → Prop := fun a b =>
    ((a.1 != 0 && b.1 == 0) || ((a.1 != 0) == (b.1 != 0) && a.1 ≤ b.1)) = true ∧ a.1 ≠ b.1
  haveI : IsAntisymm (Nat × IdString) before := ⟨fun a b ab ba => absurd (by
    obtain ⟨ab, ne⟩ := ab
    obtain ⟨ba, -⟩ := ba
    revert ab ba ne
    cases a.1 <;> cases b.1 <;> simp
    omega) id⟩
  have distinct' : (l'.map Wire.portId).Nodup := by
    have := (perm.map Prod.fst).nodup_iff.mp (by simpa [List.map_map, portView] using distinct)
    simpa [List.map_map, portView] using this
  have sorted : ∀ {l : List Wire}, (l.map Wire.portId).Nodup →
      List.Sorted before ((l.mergeSort Module.portBefore).map portView) := fun {l} distinct => by
    have ordered := List.sorted_mergeSort portBefore_trans portBefore_total l
    have apart : (l.mergeSort Module.portBefore).Pairwise fun a b => a.portId ≠ b.portId :=
      List.pairwise_map.mp (((List.mergeSort_perm l _).map Wire.portId).nodup_iff.mpr distinct)
    exact List.pairwise_map.mpr ((ordered.and apart).imp fun h => ⟨h.1, h.2⟩)
  exact List.eq_of_perm_of_sorted
    ((((List.mergeSort_perm l _).map portView).trans perm).trans ((List.mergeSort_perm l' _).map portView).symm)
    (sorted distinct) (sorted distinct')

/-- Modules whose port wires have distinct port ids, and the same port ids and names as
another's, get the port list of the other from `fixup_ports`. -/
theorem fixupPorts_ports_eq {module module' : Module}
    (distinct : ((module.wires.filter Wire.isPort).map Wire.portId).Nodup)
    (perm : ((module.wires.filter Wire.isPort).map portView).Perm
      ((module'.wires.filter Wire.isPort).map portView)) :
    module.fixupPorts.ports = module'.fixupPorts.ports := by
  have := congrArg (List.map Prod.snd) (mergeSort_portView_eq distinct perm)
  simpa [List.map_map, portView, Module.fixupPorts] using this

/-- Port wires listed in the order of `fixup_ports` keep that order. -/
theorem fixupPorts_ports_of_sorted {module : Module}
    (sorted : (module.wires.filter Wire.isPort).Pairwise fun a b => Module.portBefore a b) :
    module.fixupPorts.ports = (module.wires.filter Wire.isPort).map Wire.name := by
  simp only [Module.fixupPorts, List.mergeSort_of_sorted sorted]

/-! ## The renaming of rebuilt input ports -/

/-- The old wire of a rebuilt input port after lines 404-411: the `NEW_ID` name of its
copy, no attributes, no port. -/
def demoted (wire : Wire) (copy : Nat) : Wire :=
  { wire with name := .auto copy, attributes := .empty, portId := 0, portInput := false, portOutput := false }

/-- A wire after the renaming, against the wire before: the old wire of an entry of
`queue` is demoted, its copy takes the old wire's name, and every other wire stays. -/
def Renamed (wires : List Wire) (queue : List (Nat × Nat)) (wire wire' : Wire) : Prop :=
  (∃ copy, (wire.id, copy) ∈ queue ∧ wire' = demoted wire copy) ∨
    (∃ old ∈ wires, (old.id, wire.id) ∈ queue ∧ wire' = { wire with name := old.name }) ∨
    ((∀ entry ∈ queue, entry.1 ≠ wire.id ∧ entry.2 ≠ wire.id) ∧ wire' = wire)

section Renaming

variable {wires : List Wire} {queue : List (Nat × Nat)}

theorem Renamed.id {wire wire' : Wire} (renamed : Renamed wires queue wire wire') : wire'.id = wire.id := by
  rcases renamed with ⟨_, _, rfl⟩ | ⟨_, _, _, rfl⟩ | ⟨_, rfl⟩ <;> rfl

/-- A wire no entry of the queue names stays. -/
theorem Renamed.eq_of_untouched {wire wire' : Wire} (renamed : Renamed wires queue wire wire')
    (untouched : ∀ entry ∈ queue, entry.1 ≠ wire.id ∧ entry.2 ≠ wire.id) : wire' = wire := by
  rcases renamed with ⟨_, mem, -⟩ | ⟨_, -, mem, -⟩ | ⟨-, same⟩
  · exact absurd rfl (untouched _ mem).1
  · exact absurd rfl (untouched _ mem).2
  · exact same

theorem wireById_of_mem {module : Module} (distinct : (module.wires.map Wire.id).Nodup) {wire : Wire}
    (mem : wire ∈ module.wires) : module.wireById wire.id = some wire := by
  have present : (module.wireById wire.id).isSome := List.find?_isSome.mpr ⟨wire, mem, by simp⟩
  obtain ⟨found, hfound⟩ := Option.isSome_iff_exists.mp present
  obtain ⟨foundMem, same⟩ := wireById_spec hfound
  rwa [List.inj_on_of_nodup_map distinct foundMem mem same] at hfound

/-- What the queue must be for the renaming: its old and new wires are distinct wires of
the module, each entry's new wire a copy of its old wire under the copy's `NEW_ID` name. -/
structure QueueShape (wires : List Wire) (queue : List (Nat × Nat)) : Prop where
  distinct : (wires.map Wire.id).Nodup
  firsts : (queue.map Prod.fst).Nodup
  seconds : (queue.map Prod.snd).Nodup
  apart : ∀ entry ∈ queue, ∀ entry' ∈ queue, entry.1 ≠ entry'.2
  copies : ∀ entry ∈ queue, ∃ old ∈ wires, old.id = entry.1 ∧
    { old with id := entry.2, name := .auto entry.2 } ∈ wires

/-- One entry of lines 404-411 keeps the wires renamed. -/
theorem Renamed.swapInputs_step {done : List (Nat × Nat)} {entry : Nat × Nat}
    (shape : QueueShape wires (done ++ [entry])) {module : Module}
    (related : List.Forall₂ (Renamed wires done) wires module.wires) :
    List.Forall₂ (Renamed wires (done ++ [entry])) wires (swapInputs module [entry]).wires := by
  have mine : entry ∈ done ++ [entry] := List.mem_append_right _ (List.mem_singleton_self _)
  have untouched : ∀ id, (id = entry.1 ∨ id = entry.2) → ∀ e ∈ done, e.1 ≠ id ∧ e.2 ≠ id := by
    intro id which e mem
    have firsts := List.disjoint_of_nodup_append (by simpa using shape.firsts)
    have seconds := List.disjoint_of_nodup_append (by simpa using shape.seconds)
    rcases which with rfl | rfl
    · exact ⟨fun same => firsts (List.mem_map_of_mem Prod.fst mem) (by simp [same]),
        fun same => shape.apart entry mine e (List.mem_append_left _ mem) same.symm⟩
    · exact ⟨fun same => shape.apart e (List.mem_append_left _ mem) entry mine same,
        fun same => seconds (List.mem_map_of_mem Prod.snd mem) (by simp [same])⟩
  obtain ⟨old, oldMem, oldId, copyMem⟩ := shape.copies entry mine
  have ids : module.wires.map Wire.id = wires.map Wire.id := forall₂_map_eq related fun _ _ r => r.id
  have kept : ∀ w ∈ wires, (w.id = entry.1 ∨ w.id = entry.2) → w ∈ module.wires := by
    intro w mem which
    obtain ⟨w', mem', renamed⟩ := Forall₂.exists_of_mem_left related mem
    rwa [renamed.eq_of_untouched (untouched _ which)] at mem'
  have distinct' : (module.wires.map Wire.id).Nodup := ids ▸ shape.distinct
  have ne : entry.1 ≠ entry.2 := shape.apart entry mine entry mine
  have findOld := wireById_of_mem distinct' (kept old oldMem (.inl oldId))
  have findCopy := wireById_of_mem distinct' (kept _ copyMem (.inr rfl))
  rw [oldId] at findOld
  simp only [swapInputs, List.foldl_cons, List.foldl_nil, findOld, findCopy, Module.updateWire,
    Module.swapNames, List.map_map]
  refine forall₂_map_right_of_mem related fun wire mem wire' _ renamed => ?_
  have same := renamed.id
  by_cases isOld : wire.id = entry.1
  · obtain rfl : wire = old := List.inj_on_of_nodup_map shape.distinct mem oldMem (isOld.trans oldId.symm)
    obtain rfl := renamed.eq_of_untouched (untouched _ (.inl isOld))
    refine .inl ⟨entry.2, by simp [oldId], ?_⟩
    simp [isOld, Ne.symm ne, ne, demoted, oldId]
  · by_cases isCopy : wire.id = entry.2
    · obtain rfl := List.inj_on_of_nodup_map shape.distinct mem copyMem isCopy
      obtain rfl := renamed.eq_of_untouched (untouched _ (.inr rfl))
      refine .inr (.inl ⟨old, oldMem, by simp [oldId], ?_⟩)
      simp [oldId, ne, Ne.symm ne]
    · simp only [Function.comp, same, isOld, isCopy, oldId, if_false]
      rcases renamed with ⟨copy, mem', rfl⟩ | ⟨old', mem'', entryMem, rfl⟩ | ⟨others, rfl⟩
      · exact .inl ⟨copy, List.mem_append_left _ mem', rfl⟩
      · exact .inr (.inl ⟨old', mem'', List.mem_append_left _ entryMem, rfl⟩)
      · refine .inr (.inr ⟨fun e mem => ?_, rfl⟩)
        rcases List.mem_append.mp mem with mem | mem
        · exact others e mem
        · obtain rfl := List.mem_singleton.mp mem
          exact ⟨Ne.symm isOld, Ne.symm isCopy⟩

theorem QueueShape.sublist {queue' : List (Nat × Nat)} (shape : QueueShape wires queue)
    (sub : queue'.Sublist queue) : QueueShape wires queue' :=
  ⟨shape.distinct, (sub.map _).nodup shape.firsts, (sub.map _).nodup shape.seconds,
    fun e mem e' mem' => shape.apart e (sub.subset mem) e' (sub.subset mem'),
    fun e mem => shape.copies e (sub.subset mem)⟩

/-- Lines 404-411 rename wire by wire. -/
theorem forall₂_swapInputs (rest : List (Nat × Nat)) :
    ∀ {done : List (Nat × Nat)} {module : Module}, QueueShape wires (done ++ rest) →
      List.Forall₂ (Renamed wires done) wires module.wires →
      List.Forall₂ (Renamed wires (done ++ rest)) wires (swapInputs module rest).wires := by
  induction rest with
  | nil => intro done module _ related; simpa using related
  | cons entry rest ih =>
    intro done module shape related
    have shape' : QueueShape wires ((done ++ [entry]) ++ rest) := by simpa using shape
    have step := Renamed.swapInputs_step (shape'.sublist (List.sublist_append_left _ _)) related
    simpa using ih shape' step

/-- Lines 404-411 over the whole queue, from the wires the queue was built on. -/
theorem swapInputs_renamed (shape : QueueShape wires queue) {module : Module} (same : module.wires = wires) :
    List.Forall₂ (Renamed wires queue) wires (swapInputs module queue).wires := by
  have unchanged : List.Forall₂ (Renamed wires []) wires module.wires :=
    same ▸ List.forall₂_same.mpr fun _ _ => .inr (.inr ⟨fun _ none => (nomatch none), rfl⟩)
  simpa using forall₂_swapInputs queue (by simpa using shape) unchanged

end Renaming

/-! ## The port wires after the renaming -/

/-- What the pass must keep of a port: its port id, name, width and directions. -/
def portRecord (wire : Wire) : Nat × IdString × Nat × Bool × Bool :=
  (wire.portId, wire.name, wire.width, wire.portInput, wire.portOutput)

section Swapped

variable {start : Nat} {old added : List Wire} {queue : List (Nat × Nat)} {swapped : List Wire}
  (shape : QueueShape (added ++ old) queue)
  (related : List.Forall₂ (Renamed (added ++ old) queue) (added ++ old) swapped)
  (oldIds : ∀ wire ∈ old, wire.id < start)
  (addedKinds : ∀ wire ∈ added, start ≤ wire.id ∧
    ((wire.isPort = false ∧ wire.name = .auto wire.id) ∨ ∃ entry ∈ queue, entry.2 = wire.id))
  (entries : ∀ entry ∈ queue, ∃ o ∈ old, o.id = entry.1 ∧ start ≤ entry.2)

include shape entries in
/-- The wire an entry's copy became: the old wire under the copy's identity. -/
theorem Renamed.copy {wire old' : Wire} (mem : wire ∈ added ++ old) (oldMem : old' ∈ added ++ old)
    (entryMem : (old'.id, wire.id) ∈ queue) :
    ∃ o ∈ old, o.id = old'.id ∧ { wire with name := old'.name } = { o with id := wire.id } := by
  obtain ⟨o, oMem, oId, -⟩ := entries _ entryMem
  obtain ⟨o', o'Mem, o'Id, copyMem⟩ := shape.copies _ entryMem
  obtain rfl : o = old' := List.inj_on_of_nodup_map shape.distinct (List.mem_append_right _ oMem) oldMem oId
  obtain rfl : o' = o := List.inj_on_of_nodup_map shape.distinct o'Mem oldMem (o'Id.trans rfl)
  have same := List.inj_on_of_nodup_map shape.distinct copyMem mem rfl
  exact ⟨o', oMem, rfl, by rw [← same]⟩

include shape related addedKinds entries in
/-- A port wire after the renaming is a port wire of the module under its own identity, or
the copy of a rebuilt one. -/
theorem swapped_port {wire' : Wire} (mem' : wire' ∈ swapped) (port : wire'.isPort = true) :
    ∃ o ∈ old, portRecord wire' = portRecord o ∧
      ((wire' = o ∧ ∀ entry ∈ queue, entry.1 ≠ o.id) ∨ ∃ entry ∈ queue, entry.1 = o.id ∧ wire'.id = entry.2) := by
  obtain ⟨wire, mem, renamed⟩ := Forall₂.exists_of_mem_right related mem'
  rcases renamed with ⟨_, -, rfl⟩ | ⟨old', oldMem, entryMem, rfl⟩ | ⟨untouched, rfl⟩
  · simp [demoted, Wire.isPort] at port
  · obtain ⟨o, oMem, oId, same⟩ := Renamed.copy shape entries mem oldMem entryMem
    exact ⟨o, oMem, by rw [same]; rfl, .inr ⟨_, entryMem, oId.symm, rfl⟩⟩
  · rcases List.mem_append.mp mem with new | mem
    · rcases (addedKinds wire' new).2 with ⟨plain, -⟩ | ⟨entry, entryMem, same⟩
      · simp [plain] at port
      · exact absurd same (untouched entry entryMem).2
    · exact ⟨wire', mem, rfl, .inl ⟨rfl, fun entry entryMem => (untouched entry entryMem).1⟩⟩

include shape related oldIds entries in
/-- Every wire of the module is, after the renaming, kept or copied under its port id,
name, width and directions. -/
theorem port_swapped {o : Wire} (mem : o ∈ old) : ∃ wire' ∈ swapped, portRecord wire' = portRecord o := by
  by_cases queued : ∃ entry ∈ queue, entry.1 = o.id
  · obtain ⟨entry, entryMem, first⟩ := queued
    obtain ⟨o', o'Mem, o'Id, copyMem⟩ := shape.copies entry entryMem
    obtain ⟨wire', mem', renamed⟩ := Forall₂.exists_of_mem_left related copyMem
    rcases renamed with ⟨_, entryMem', -⟩ | ⟨old', oldMem, entryMem', rfl⟩ | ⟨untouched, -⟩
    · exact absurd rfl (shape.apart _ entryMem' entry entryMem)
    · obtain ⟨o'', o''Mem, o''Id, same⟩ := Renamed.copy shape entries copyMem oldMem entryMem'
      refine ⟨_, mem', ?_⟩
      rw [same]
      have key : old'.id = entry.1 :=
        congrArg Prod.fst (List.inj_on_of_nodup_map shape.seconds entryMem' entryMem rfl)
      obtain rfl : o'' = o := List.inj_on_of_nodup_map shape.distinct (List.mem_append_right _ o''Mem)
        (List.mem_append_right _ mem) ((o''Id.trans key).trans first)
      rfl
    · exact absurd rfl (untouched entry entryMem).2
  · push_neg at queued
    obtain ⟨wire', mem', renamed⟩ := Forall₂.exists_of_mem_left related (List.mem_append_right added mem)
    refine ⟨wire', mem', ?_⟩
    rcases renamed with ⟨_, entryMem, -⟩ | ⟨_, -, entryMem, -⟩ | ⟨-, rfl⟩
    · exact absurd rfl (queued _ entryMem)
    · obtain ⟨-, -, -, low⟩ := entries _ entryMem
      have := oldIds o mem
      omega
    · rfl

include shape related addedKinds entries in
/-- The port wires after the renaming are determined by their port ids. -/
theorem swapped_port_inj (portIds : ((old.filter Wire.isPort).map Wire.portId).Nodup) {a b : Wire}
    (memA : a ∈ swapped) (memB : b ∈ swapped) (portA : a.isPort = true) (portB : b.isPort = true)
    (same : a.portId = b.portId) : a = b := by
  obtain ⟨oa, oaMem, ra, ka⟩ := swapped_port shape related addedKinds entries memA portA
  obtain ⟨ob, obMem, rb, kb⟩ := swapped_port shape related addedKinds entries memB portB
  simp only [portRecord, Prod.mk.injEq] at ra rb
  have port : ∀ {w o : Wire}, w.portInput = o.portInput → w.portOutput = o.portOutput →
      w.isPort = true → o ∈ old → o ∈ old.filter Wire.isPort := fun input output port mem =>
    List.mem_filter.mpr ⟨mem, by simpa [Wire.isPort, input, output] using port⟩
  obtain rfl : oa = ob := List.inj_on_of_nodup_map portIds (port ra.2.2.2.1 ra.2.2.2.2 portA oaMem)
    (port rb.2.2.2.1 rb.2.2.2.2 portB obMem) (ra.1.symm.trans (same.trans rb.1))
  have ids : (swapped.map Wire.id).Nodup :=
    (forall₂_map_eq related fun _ _ renamed => renamed.id) ▸ shape.distinct
  rcases ka with ⟨rfl, untouched⟩ | ⟨e, eMem, first, aId⟩ <;>
    rcases kb with ⟨rfl, untouched'⟩ | ⟨e', e'Mem, first', bId⟩
  · rfl
  · exact absurd first' (untouched e' e'Mem)
  · exact absurd first (untouched' e eMem)
  · obtain rfl := List.inj_on_of_nodup_map shape.firsts eMem e'Mem (first.trans first'.symm)
    exact List.inj_on_of_nodup_map ids memA memB (aId.trans bId.symm)

include shape related oldIds addedKinds entries in
/-- Renaming keeps the port ids and names of the port wires, as a multiset. -/
theorem swapped_ports_perm (portIds : ((old.filter Wire.isPort).map Wire.portId).Nodup) :
    ((swapped.filter Wire.isPort).map portView).Perm ((old.filter Wire.isPort).map portView) := by
  have ids : (swapped.map Wire.id).Nodup :=
    (forall₂_map_eq related fun _ _ renamed => renamed.id) ▸ shape.distinct
  have viewPort : ∀ {w o : Wire}, portRecord w = portRecord o → portView w = portView o ∧
      w.isPort = o.isPort := fun same => by
    simp only [portRecord, Prod.mk.injEq] at same
    simp [portView, Wire.isPort, same]
  refine (List.perm_ext_iff_of_nodup ?_ ?_).mpr fun view => ?_
  · refine ((ids.of_map _).filter _).map_on fun a memA b memB same => ?_
    obtain ⟨memA, portA⟩ := List.mem_filter.mp memA
    obtain ⟨memB, portB⟩ := List.mem_filter.mp memB
    exact swapped_port_inj shape related addedKinds entries portIds memA memB portA portB
      (congrArg Prod.fst same)
  · exact List.Nodup.of_map Prod.fst (by simpa [List.map_map, portView] using portIds)
  · simp only [List.mem_map, List.mem_filter]
    constructor
    · rintro ⟨w, ⟨mem, port⟩, rfl⟩
      obtain ⟨o, oMem, same, -⟩ := swapped_port shape related addedKinds entries mem port
      obtain ⟨view, isPort⟩ := viewPort same
      exact ⟨o, ⟨oMem, isPort ▸ port⟩, view.symm⟩
    · rintro ⟨o, ⟨mem, port⟩, rfl⟩
      obtain ⟨w, wMem, same⟩ := port_swapped shape related oldIds entries mem
      obtain ⟨view, isPort⟩ := viewPort same
      exact ⟨w, ⟨wMem, isPort.symm ▸ port⟩, view⟩

include shape related addedKinds entries in
/-- A wire after the renaming that carries the name of a wire of the module has its port
record, when names of the module are distinct and its `NEW_ID` names older than `start`. -/
theorem swapped_name (names : (old.map Wire.name).Nodup) (below : ∀ o ∈ old, NamedBelow start o.name)
    {wire' : Wire} (mem' : wire' ∈ swapped) {o : Wire} (mem : o ∈ old) (same : wire'.name = o.name) :
    portRecord wire' = portRecord o := by
  obtain ⟨wire, wireMem, renamed⟩ := Forall₂.exists_of_mem_right related mem'
  have notAuto : ∀ {index}, o.name = .auto index → index < start := fun named => by
    simpa [NamedBelow, named] using below o mem
  rcases renamed with ⟨c, entryMem, rfl⟩ | ⟨old', oldMem, entryMem, rfl⟩ | ⟨untouched, rfl⟩
  · have := notAuto same.symm
    obtain ⟨-, -, -, low⟩ := entries _ entryMem
    omega
  · obtain ⟨o', o'Mem, -, eq⟩ := Renamed.copy shape entries wireMem oldMem entryMem
    rw [eq] at same ⊢
    obtain rfl := List.inj_on_of_nodup_map names o'Mem mem same
    rfl
  · rcases List.mem_append.mp wireMem with new | oldMem
    · rcases addedKinds wire' new with ⟨low, ⟨-, named⟩ | ⟨e, eMem, second⟩⟩
      · have := notAuto (same.symm.trans named)
        omega
      · exact absurd second (untouched e eMem).2
    · obtain rfl := List.inj_on_of_nodup_map names oldMem mem same
      rfl

include shape related entries in
/-- The copy of a rebuilt input port is the old wire under the copy's identity. -/
theorem swapped_copy {o : Wire} (mem : o ∈ old) {copy : Nat} (entryMem : (o.id, copy) ∈ queue) :
    { o with id := copy } ∈ swapped := by
  obtain ⟨o', o'Mem, o'Id, copyMem⟩ := shape.copies _ entryMem
  obtain ⟨wire', mem', renamed⟩ := Forall₂.exists_of_mem_left related copyMem
  rcases renamed with ⟨_, entryMem', -⟩ | ⟨old', oldMem, entryMem', rfl⟩ | ⟨untouched, -⟩
  · exact absurd rfl (shape.apart _ entryMem' _ entryMem)
  · obtain ⟨o'', o''Mem, o''Id, same⟩ := Renamed.copy shape entries copyMem oldMem entryMem'
    have key : old'.id = o.id :=
      congrArg Prod.fst (List.inj_on_of_nodup_map shape.seconds entryMem' entryMem rfl)
    obtain rfl : o'' = o := List.inj_on_of_nodup_map shape.distinct (List.mem_append_right _ o''Mem)
      (List.mem_append_right _ mem) (o''Id.trans key)
    exact same ▸ mem'
  · exact absurd rfl (untouched _ entryMem).2

include shape related in
/-- The old wire of a rebuilt input port is demoted. -/
theorem demoted_swapped {o : Wire} (mem : o ∈ old) {entry : Nat × Nat} (entryMem : entry ∈ queue)
    (first : entry.1 = o.id) : demoted o entry.2 ∈ swapped := by
  obtain ⟨wire', mem', renamed⟩ := Forall₂.exists_of_mem_left related (List.mem_append_right added mem)
  rcases renamed with ⟨c, entryMem', rfl⟩ | ⟨_, -, entryMem', -⟩ | ⟨untouched, -⟩
  · obtain rfl : (o.id, c) = entry := List.inj_on_of_nodup_map shape.firsts entryMem' entryMem first.symm
    exact mem'
  · exact absurd first (shape.apart entry entryMem _ entryMem')
  · exact absurd first (untouched entry entryMem).1

end Swapped

/-! ## Rebuilt input ports -/

section Queue

variable (context : Context) (module : Module) (sigmap : SigBit → SigBit) (tags : InvState)
  (driven : Finset SigBit)

/-- The second loop puts a chain on bit `i` of `wire`: its canonical bit is a sink, not
buffered, and the bit is driven or the module is a top module (lines 290-301). -/
def ChainsBit (wire : Wire) (i : Nat) : Prop :=
  sigmap (wire.bit i) ∉ tags.buf ∧ sigmap (wire.bit i) ∈ tags.sink ∧
    (wire.bit i ∈ driven ∨ module.top = true)

/-- An input port the loop rebuilds: a considered input port with a chain on one of its
bits (lines 326-328, 337). -/
def Rebuilt (wire : Wire) : Prop :=
  Considered context module wire ∧ wire.portInput = true ∧
    ∃ i < wire.width, ChainsBit module sigmap tags (drivenWireBits context.output module) wire i

theorem insertChain_inputQueue (wire : Wire) (bit : SigBit) (state : InsertState) :
    (insertChain context module wire bit state).inputQueue = state.inputQueue := by
  unfold insertChain
  cases useBuffer context module wire <;> cases usePad context module wire <;> rfl

theorem foldl_insertBit_inputQueue (wire : Wire) (indices : List Nat) :
    ∀ acc : InsertState × Bool,
      (indices.foldl (insertBit context module sigmap tags driven wire) acc).1.inputQueue =
        acc.1.inputQueue := by
  induction indices with
  | nil => exact fun _ => rfl
  | cons i indices ih =>
    refine fun ⟨state, flag⟩ => (ih _).trans ?_
    simp only [insertBit]
    repeat' split
    all_goals simp [insertChain_inputQueue]

variable {context module sigmap tags driven}

/-- A chain on a bit of an input port sets the flag `input_bits`, and a set flag stays. -/
theorem insertBit_flag {wire : Wire} (input : wire.portInput = true) {state : InsertState}
    {flag : Bool} {i : Nat} (fires : flag = true ∨ ChainsBit module sigmap tags driven wire i) :
    (insertBit context module sigmap tags driven wire (state, flag) i).2 = true := by
  simp only [insertBit]
  rcases fires with rfl | ⟨notBuf, sink, drivenOrTop⟩
  · repeat' split
    all_goals simp
  · simp only [if_neg notBuf, sink, not_true_eq_false, if_false]
    rw [if_pos (drivenOrTop.imp_right fun top => ⟨input, top⟩)]
    simp [input]

theorem foldl_insertBit_flag {wire : Wire} (input : wire.portInput = true) (indices : List Nat) :
    ∀ {acc : InsertState × Bool}, (acc.2 = true ∨ ∃ i ∈ indices, ChainsBit module sigmap tags driven wire i) →
      (indices.foldl (insertBit context module sigmap tags driven wire) acc).2 = true := by
  induction indices with
  | nil => intro acc fires; simpa using fires
  | cons i indices ih =>
    rintro ⟨state, flag⟩ (set | ⟨j, mem, chains⟩)
    · exact ih (.inl (insertBit_flag input (.inl set)))
    rcases List.mem_cons.mp mem with rfl | mem
    · exact ih (.inl (insertBit_flag input (.inr chains)))
    · exact ih (.inr ⟨j, mem, chains⟩)

/-- Visiting a wire appends to `input_queue`; a considered input port with a chain on one of
its bits gets an entry. -/
theorem insertWire_inputQueue (state : InsertState) (wire : Wire) :
    ∃ extra, (insertWire context module sigmap tags driven state wire).inputQueue = state.inputQueue ++ extra ∧
      (Considered context module wire → wire.portInput = true →
        (∃ i < wire.width, ChainsBit module sigmap tags driven wire i) → ∃ entry ∈ extra, entry.1 = wire.id) := by
  unfold insertWire
  split
  · rename_i inout
    exact ⟨[], by simp, fun considered => absurd inout considered.1⟩
  split
  · rename_i skipped
    exact ⟨[], by split <;> simp, fun considered => by simp [considered.2] at skipped⟩
  have queue := foldl_insertBit_inputQueue context module sigmap tags driven wire (List.range wire.width)
    (state, false)
  have flag : wire.portInput = true → (∃ i < wire.width, ChainsBit module sigmap tags driven wire i) →
      ((List.range wire.width).foldl (insertBit context module sigmap tags driven wire) (state, false)).2 =
        true := fun input ⟨i, lt, chains⟩ =>
    foldl_insertBit_flag input _ (.inr ⟨i, List.mem_range.mpr lt, chains⟩)
  revert queue flag
  generalize (List.range wire.width).foldl (insertBit context module sigmap tags driven wire) (state, false) = result
  obtain ⟨state', inputBits⟩ := result
  intro queue flag
  simp only at queue flag
  cases inputBits
  · exact ⟨[], by simpa using queue, fun _ input chains => absurd (flag input chains) Bool.false_ne_true⟩
  · exact ⟨[(wire.id, state'.autoidx)], by simp [rewireInput, queue], fun _ _ _ => ⟨_, List.mem_singleton_self _, rfl⟩⟩

theorem foldl_insertWire_inputQueue (wires : List Wire) :
    ∀ state : InsertState, ∃ extra,
      (wires.foldl (insertWire context module sigmap tags driven) state).inputQueue = state.inputQueue ++ extra ∧
      ∀ wire ∈ wires, Considered context module wire → wire.portInput = true →
        (∃ i < wire.width, ChainsBit module sigmap tags driven wire i) → ∃ entry ∈ extra, entry.1 = wire.id := by
  induction wires with
  | nil => exact fun state => ⟨[], by simp, by simp⟩
  | cons wire wires ih =>
    intro state
    obtain ⟨extra, queue, rebuilt⟩ := @insertWire_inputQueue context module sigmap tags driven state wire
    obtain ⟨extra', queue', rebuilt'⟩ := ih (insertWire context module sigmap tags driven state wire)
    refine ⟨extra ++ extra', by rw [List.foldl_cons, queue', queue, List.append_assoc], ?_⟩
    rintro w mem considered input chains
    rcases List.mem_cons.mp mem with rfl | mem
    · obtain ⟨entry, entryMem, first⟩ := rebuilt considered input chains
      exact ⟨entry, List.mem_append_left _ entryMem, first⟩
    · obtain ⟨entry, entryMem, first⟩ := rebuilt' w mem considered input chains
      exact ⟨entry, List.mem_append_right _ entryMem, first⟩

/-- Every input port the loop rebuilds is in `input_queue`. -/
theorem insertBuffers_queues {start : Nat} {sinkPorts bufPorts : Finset PortKey} {wire : Wire}
    (mem : wire ∈ module.wires) (rebuilt : Rebuilt context module sigmap tags wire) :
    ∃ entry ∈ (insertBuffers context module sigmap tags start sinkPorts bufPorts).inputQueue,
      entry.1 = wire.id := by
  obtain ⟨extra, queue, queued⟩ := foldl_insertWire_inputQueue module.wires
    ⟨module, start, sinkPorts, bufPorts, fun _ => none, []⟩
  obtain ⟨entry, entryMem, first⟩ := queued wire mem rebuilt.1 rebuilt.2.1 rebuilt.2.2
  exact ⟨entry, by simpa [insertBuffers, publishOutputs, queue] using entryMem, first⟩

end Queue

/-! ## Ports across one run -/

/-- A wire after `fixup_ports` is a wire before, renumbered. -/
theorem fixupPorts_wire_spec {module : Module} {wire : Wire} (mem : wire ∈ module.fixupPorts.wires) :
    ∃ wire₀ ∈ module.wires, wire = { wire₀ with portId := wire.portId } := by
  obtain ⟨wire₀, mem₀, rfl⟩ := List.mem_map.mp mem
  exact ⟨wire₀, mem₀, by split <;> rfl⟩

/-- `fixup_ports` numbers a wire that is no port zero. -/
theorem mem_fixupPorts_of_not_port {module : Module} {wire : Wire} (mem : wire ∈ module.wires)
    (notPort : wire.isPort = false) : { wire with portId := 0 } ∈ module.fixupPorts.wires :=
  List.mem_map.mpr ⟨wire, mem, by simp [notPort]⟩

/-- A port listed by `fixup_ports` names a port wire. -/
theorem mem_fixupPorts_ports {module : Module} {name : IdString} (mem : name ∈ module.fixupPorts.ports) :
    ∃ wire ∈ module.wires, wire.isPort = true ∧ wire.name = name := by
  obtain ⟨wire, sorted, rfl⟩ := List.mem_map.mp mem
  obtain ⟨wireMem, port⟩ := List.mem_filter.mp (List.mem_mergeSort.mp sorted)
  exact ⟨wire, wireMem, port, rfl⟩

/-- `Module::wire(name)` finds a wire of that name, if there is one. -/
theorem wire_eq_some {module : Module} {name : IdString} {wire : Wire} (mem : wire ∈ module.wires)
    (named : wire.name = name) : ∃ found ∈ module.wires, module.wire name = some found ∧ found.name = name := by
  have present : (module.wire name).isSome := List.find?_isSome.mpr ⟨wire, mem, by simp [named]⟩
  obtain ⟨found, hfound⟩ := Option.isSome_iff_exists.mp present
  exact ⟨found, List.mem_of_find?_eq_some hfound, hfound, by simpa using List.find?_some hfound⟩

section Setting

variable {context : Context} {module : Module} {sigmap : SigBit → SigBit} {tags : InvState}
  {start : Nat} {state : InsertState}

/-- What the second loop leaves is a setting for the renaming: the new wires, the wires of
the module and `input_queue` have the shape `swapped_port` and `port_swapped` ask for. -/
theorem Grown.renaming (fresh : Fresh module start) (distinct : (module.wires.map Wire.id).Nodup)
    (grown : Grown context module sigmap tags start module.wires state) :
    ∃ added, state.module.wires = added ++ module.wires ∧
      QueueShape (added ++ module.wires) state.inputQueue ∧
      (∀ wire ∈ added, start ≤ wire.id ∧ ((wire.isPort = false ∧ wire.name = .auto wire.id) ∨
        ∃ entry ∈ state.inputQueue, entry.2 = wire.id)) ∧
      ∀ entry ∈ state.inputQueue, ∃ o ∈ module.wires, o.id = entry.1 ∧ start ≤ entry.2 := by
  obtain ⟨added, wires, addedNodup, bounds⟩ := grown.wires
  obtain ⟨firsts, seconds, queue⟩ := grown.queue
  have ids : ((added ++ module.wires).map Wire.id).Nodup := by
    rw [List.map_append]
    refine List.nodup_append.mpr ⟨addedNodup, distinct, fun id new old => ?_⟩
    obtain ⟨wire, wireMem, rfl⟩ := List.mem_map.mp new
    obtain ⟨wire', wireMem', same⟩ := List.mem_map.mp old
    have := (bounds wire wireMem).1
    have := fresh.wires wire' wireMem'
    omega
  refine ⟨added, wires, ⟨ids, firsts, seconds, fun e eMem e' e'Mem same => ?_, fun e eMem => ?_⟩,
    fun wire wireMem => ?_, fun e eMem => ?_⟩
  · obtain ⟨o, oMem, -, -, oId, -⟩ := queue e eMem
    obtain ⟨-, -, -, -, -, -, low, -⟩ := queue e' e'Mem
    have := fresh.wires o oMem
    omega
  · obtain ⟨o, oMem, -, -, oId, copy, -⟩ := queue e eMem
    exact ⟨o, List.mem_append_right _ oMem, oId, wires ▸ copy⟩
  · obtain ⟨low, -, kind⟩ := bounds wire wireMem
    refine ⟨low, kind.imp (fun chain => ?_) And.left⟩
    rw [chain]
    exact ⟨rfl, rfl⟩
  · obtain ⟨o, oMem, -, -, oId, -, low, -⟩ := queue e eMem
    exact ⟨o, oMem, oId, low⟩

end Setting

/-- A module whose port list `fixup_ports` would leave as it is, with distinct port ids and
distinct wire names (the wire dictionary is keyed by name). -/
structure PortList (module : Module) : Prop where
  fixed : module.fixupPorts.ports = module.ports
  portIds : ((module.wires.filter Wire.isPort).map Wire.portId).Nodup
  names : (module.wires.map Wire.name).Nodup

section Run

variable {context : Context} {tables : TagTables} {autoidx : Nat} {module : Module}
  {sigmap : SigMap module.connections}

/-- One run of the pass keeps the port list, keeps the width and directions of the wire of
each port name, and demotes the old wire of each input port it rebuilds to an internal wire
with no attributes. -/
theorem processModule_keeps_ports (wf : WellFormed module autoidx) (portList : PortList module)
    {result : Module} {tables' : TagTables} {autoidx' : Nat}
    (processed : processModule context tables autoidx module sigmap = some (result, tables', autoidx')) :
    result.ports = module.ports ∧
    (∀ o ∈ module.wires, o.isPort = true → ∃ wire, result.wire o.name = some wire ∧
      wire.width = o.width ∧ wire.portInput = o.portInput ∧ wire.portOutput = o.portOutput) ∧
    ∃ tags, propagateInverters tables sigmap module
        ⟨collectBits sigmap tables.sinkPorts module, collectBits sigmap tables.bufPorts module⟩ = some tags ∧
      ∀ o ∈ module.wires, Rebuilt context module sigmap tags o →
        ∃ wire ∈ result.wires, wire.id = o.id ∧ wire.isPort = false ∧ wire.portId = 0 ∧
          wire.attributes = .empty ∧ wire.name ∉ result.ports := by
  obtain ⟨tags, bufrMap, reconnected, propagated, -, grown, rewired, rfl, -⟩ := processModule_frames wf processed
  set published := insertBuffers context module sigmap tags autoidx tables.sinkPorts
    (collectBufBits context module sigmap module.wires tables.bufPorts).2
  obtain ⟨added, wires, shape, addedKinds, entries⟩ := grown.renaming wf.toFresh wf.distinctWires
  have related := swapInputs_renamed shape ((congrArg Module.wires rewired.1).trans wires)
  have ports : (swapInputs reconnected published.inputQueue).fixupPorts.ports = module.ports :=
    (fixupPorts_ports_eq portList.portIds
      (swapped_ports_perm shape related wf.wires addedKinds entries portList.portIds).symm).symm.trans
      portList.fixed
  refine ⟨ports, fun o oMem port => ?_, tags, propagated, fun o oMem rebuilt => ?_⟩
  · obtain ⟨wire, wireMem, same⟩ := port_swapped shape related wf.wires entries oMem
    obtain ⟨numbered, numberedMem, renumbered⟩ := mem_fixupPorts wireMem
    have named : numbered.name = o.name := by
      rw [renumbered]
      exact congrArg (·.2.1) same
    obtain ⟨found, foundMem, lookup, named'⟩ := wire_eq_some numberedMem named
    obtain ⟨wire₀, mem₀, renumbered₀⟩ := fixupPorts_wire_spec foundMem
    rw [renumbered₀] at named'
    have record := swapped_name shape related addedKinds entries portList.names wf.names mem₀ oMem named'
    simp only [portRecord, Prod.mk.injEq] at record
    exact ⟨found, lookup, by rw [renumbered₀]; exact record.2.2⟩
  · obtain ⟨entry, entryMem, first⟩ := insertBuffers_queues oMem rebuilt
    have demotedMem := mem_fixupPorts_of_not_port (demoted_swapped shape related oMem entryMem first) rfl
    refine ⟨_, demotedMem, rfl, rfl, rfl, rfl, fun named => ?_⟩
    rw [ports, ← portList.fixed] at named
    obtain ⟨wire, wireMem, -, same⟩ := mem_fixupPorts_ports named
    have below := wf.names wire wireMem
    obtain ⟨-, -, -, low⟩ := entries entry entryMem
    simp only [same, demoted, NamedBelow] at below
    omega

/-- Module `top`: the input port `clk` clocks the flip-flop `ff`, whose output is the
output port `q`. -/
def clockInputModule : Module where
  name := .id "\\top"
  blackbox := false
  top := true
  ports := [.id "\\clk", .id "\\q"]
  wires := [⟨1, .id "\\clk", 1, 1, true, false, .empty⟩, ⟨2, .id "\\q", 1, 2, false, true, .empty⟩]
  cells := [⟨10, .id "\\ff", .id "\\FF", [(.id "\\C", [.wire 1 0]), (.id "\\Q", [.wire 2 0])]⟩]
  connections := []

theorem clockInputModule_wellFormed : WellFormed clockInputModule 100 :=
  ⟨⟨by decide, by decide, by decide, by decide, by decide⟩, by decide, by decide, by decide⟩

theorem clockInputModule_portList : PortList clockInputModule :=
  ⟨(fixupPorts_ports_of_sorted (by decide)).trans rfl, by decide, by decide⟩

theorem processModule_keeps_ports_clockInput :
    ∃ result, processModule bufgContext clockTables 100 clockInputModule (SigMap.ofConnections _) =
        some result ∧
      let sigmap := SigMap.ofConnections clockInputModule.connections
      result.1.ports = clockInputModule.ports ∧
      (∀ o ∈ clockInputModule.wires, o.isPort = true → ∃ wire, result.1.wire o.name = some wire ∧
        wire.width = o.width ∧ wire.portInput = o.portInput ∧ wire.portOutput = o.portOutput) ∧
      ∃ tags, propagateInverters clockTables sigmap clockInputModule
          ⟨collectBits sigmap clockTables.sinkPorts clockInputModule,
            collectBits sigmap clockTables.bufPorts clockInputModule⟩ = some tags ∧
        ∀ o ∈ clockInputModule.wires, Rebuilt bufgContext clockInputModule sigmap tags o →
          ∃ wire ∈ result.1.wires, wire.id = o.id ∧ wire.isPort = false ∧ wire.portId = 0 ∧
            wire.attributes = .empty ∧ wire.name ∉ result.1.ports :=
  have processed : processModule bufgContext clockTables 100 clockInputModule
      (SigMap.ofConnections _) = some _ := rfl
  ⟨_, processed, processModule_keeps_ports clockInputModule_wellFormed clockInputModule_portList processed⟩

end Run

end SynthesisRepo.Verified
