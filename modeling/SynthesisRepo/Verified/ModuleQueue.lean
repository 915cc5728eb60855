import SynthesisRepo.Clkbufmap.Execute
import Mathlib.Data.List.Chain
import Mathlib.Data.List.Perm.Subperm

/-! # `module_queue` orders the hierarchy bottom-up

On a design whose instantiation relation is acyclic, `module_queue` run on each selected
root in turn terminates within the fuel `execute` gives it (one more than the number of
modules) and lists every module reachable from the roots exactly once, each after every
module it instantiates.

Termination: a recursion `fuel` calls deep is a chain of `fuel` instantiations, and an
acyclic chain never repeats a module, so it is shorter than the design (`bounded_of_acyclic`).
Correctness: `modules_processed` always equals `modules_sorted`, which stays duplicate-free
and topologically ordered (`Good`); a call adds only modules reachable from its module,
and that module last (`moduleQueue_spec`).
-/

namespace SynthesisRepo.Verified

open Rtlil Clkbufmap Relation

variable (design : Design)

/-- Module `parent` instantiates `child`: a cell of `parent` has type `child`, and `child`
is a module of the design. -/
def Instantiates (parent child : IdString) : Prop :=
  ∃ module, design.module parent = some module ∧
    ∃ cell ∈ module.cells, cell.type = child ∧ (design.module child).isSome

/-- The instantiation relation has no cycle. -/
def Acyclic : Prop := ∀ name, ¬ TransGen (Instantiates design) name name

/-- Every module of `order` comes after every module it instantiates. -/
def Topological (order : List IdString) : Prop :=
  ∀ before name after, order = before ++ name :: after →
    ∀ child, Instantiates design name child → child ∈ before

/-- What `module_queue` keeps true of `(modules_sorted, modules_processed)`. -/
def Good (queue : List IdString × List IdString) : Prop :=
  queue.2 = queue.1 ∧ queue.1.Nodup ∧ Topological design queue.1

/-- Every chain of instantiations from `name` has fewer than `fuel` modules. -/
def Bounded : Nat → IdString → Prop
  | 0, _ => False
  | fuel + 1, name => ∀ child, Instantiates design name child → Bounded fuel child

variable {design}

/-! ## Lookups in a design -/

theorem Design.module_of_mem {module : Module} (mem : module ∈ design.modules) :
    design.module module.name = some module := by
  unfold Design.module
  obtain ⟨before, after, split⟩ := List.append_of_mem mem
  have nodup := design.names_nodup
  rw [split] at nodup ⊢
  simp only [List.map_append, List.map_cons, List.nodup_append, List.nodup_cons] at nodup
  have fresh : ∀ other ∈ before, ¬ (other.name == module.name) = true := by
    intro other mem same
    have named : other.name = module.name := by simpa using same
    exact nodup.2.2 (List.mem_map_of_mem _ mem) (named ▸ List.mem_cons_self _ _)
  rw [List.find?_append, List.find?_eq_none.mpr fresh, Option.none_or,
    List.find?_cons_of_pos _ (by simp)]

theorem Design.mem_of_module {name : IdString} {module : Module}
    (found : design.module name = some module) : module ∈ design.modules ∧ module.name = name :=
  ⟨List.mem_of_find?_eq_some found, by simpa using List.find?_some found⟩

/-- `Design::add` of a module under its name leaves every other name's module. -/
theorem Design.module_update_ne {module : Module} {name : IdString} (other : module.name ≠ name) :
    (design.update module).module name = design.module name := by
  unfold Design.module Design.update
  dsimp only
  induction design.modules with
  | nil => rfl
  | cons old rest ih =>
    by_cases replaced : old.name = module.name
    · have miss : ¬ (old.name == name) = true := by simpa [replaced] using other
      simp [List.find?_cons, replaced, miss, other, ih]
    · by_cases hit : old.name = name <;> simp [List.find?_cons, replaced, hit, ih, Ne.symm other]

/-- `Design::add` of a module under the name of one the design holds puts it there. -/
theorem Design.module_update_self {module : Module} (present : (design.module module.name).isSome) :
    (design.update module).module module.name = some module := by
  obtain ⟨old, found⟩ := Option.isSome_iff_exists.mp present
  obtain ⟨mem, named⟩ := Design.mem_of_module found
  exact Design.module_of_mem (List.mem_map.mpr ⟨old, mem, if_pos named⟩)

theorem Instantiates.child_isSome {parent child : IdString}
    (h : Instantiates design parent child) : (design.module child).isSome := by
  obtain ⟨_, _, _, _, _, found⟩ := h; exact found

/-- Every name reachable from a module of the design names a module. -/
theorem isSome_of_reflTransGen {root : Module} {name : IdString} (mem : root ∈ design.modules)
    (path : ReflTransGen (Instantiates design) root.name name) : (design.module name).isSome := by
  rcases path.cases_tail with rfl | ⟨_, -, step⟩
  · simp [Design.module_of_mem mem]
  · exact step.child_isSome

/-! ## Termination -/

theorem exists_parent_of_mem_chain {r : IdString → IdString → Prop} :
    ∀ {first : IdString} {chain : List IdString} {member : IdString},
      List.Chain r first chain → member ∈ chain → ∃ parent, r parent member
  | first, _ :: _, _, .cons step _, .head _ => ⟨first, step⟩
  | _, _ :: _, _, .cons _ rest, .tail _ mem => exists_parent_of_mem_chain rest mem

/-- A design with no bounded chain from `name` has a chain of `fuel` instantiations. -/
theorem exists_chain_of_not_bounded :
    ∀ {fuel : Nat} {name : IdString}, ¬ Bounded design fuel name →
      ∃ chain, List.Chain (Instantiates design) name chain ∧ fuel ≤ chain.length + 1
  | 0, _, _ => ⟨[], .nil, by simp⟩
  | fuel + 1, name, unbounded => by
    simp only [Bounded, not_forall] at unbounded
    obtain ⟨child, inst, unbounded⟩ := unbounded
    obtain ⟨chain, linked, long⟩ := exists_chain_of_not_bounded unbounded
    exact ⟨child :: chain, .cons inst linked, by simp; omega⟩

/-- In an acyclic design every chain from a module is shorter than the design. -/
theorem bounded_of_acyclic (acyclic : Acyclic design) {name : IdString}
    (isModule : (design.module name).isSome) :
    Bounded design (design.modules.length + 1) name := by
  by_contra unbounded
  obtain ⟨chain, linked, long⟩ := exists_chain_of_not_bounded unbounded
  have pairwise : (name :: chain).Pairwise (TransGen (Instantiates design)) :=
    List.chain_iff_pairwise.mp (linked.imp fun _ _ => TransGen.single)
  have nodup : (name :: chain).Nodup :=
    pairwise.imp fun path same => by subst same; exact acyclic _ path
  have inDesign : name :: chain ⊆ design.modules.map Module.name := by
    intro member mem
    have isModule' : (design.module member).isSome := by
      rcases List.mem_cons.mp mem with rfl | mem
      · exact isModule
      · obtain ⟨parent, step⟩ := exists_parent_of_mem_chain linked mem
        exact step.child_isSome
    obtain ⟨module, found⟩ := Option.isSome_iff_exists.mp isModule'
    obtain ⟨mem', named⟩ := Design.mem_of_module found
    exact List.mem_map.mpr ⟨module, mem', named⟩
  have := (nodup.subperm inDesign).length_le
  simp only [List.length_cons, List.length_map] at this
  omega

/-! ## One call of `module_queue` -/

theorem Topological.append_singleton {order : List IdString} {name : IdString}
    (ordered : Topological design order)
    (children : ∀ child, Instantiates design name child → child ∈ order) :
    Topological design (order ++ [name]) := by
  intro before name' after split child inst
  rcases List.eq_nil_or_concat after with rfl | ⟨after', last, rfl⟩
  · obtain ⟨rfl, same⟩ := List.append_inj' split rfl
    simp only [List.cons.injEq, and_true] at same
    subst same
    exact children child inst
  · rw [List.concat_eq_append, ← List.cons_append, ← List.append_assoc] at split
    exact ordered before name' after' (List.append_inj' split rfl).1 child inst

/-- A cell of a module of the design whose type is a module is an instantiation. -/
theorem instantiates_of_cell {module submodule : Module} {cell : Cell}
    (mem : module ∈ design.modules) (cellMem : cell ∈ module.cells)
    (found : design.module cell.type = some submodule) :
    Instantiates design module.name submodule.name := by
  have named := (Design.mem_of_module found).2
  exact ⟨module, Design.module_of_mem mem, cell, cellMem, named.symm, by simp [named, found]⟩

/-- What a call of `module_queue design fuel` guarantees. -/
def QueueSpec (design : Design) (fuel : Nat) : Prop :=
  ∀ (module : Module) queue, module ∈ design.modules → Bounded design fuel module.name →
    Good design queue → ∃ queue', moduleQueue design fuel module queue = some queue' ∧
      Good design queue' ∧ queue.1 <+: queue'.1 ∧ module.name ∈ queue'.1 ∧
      ∀ name ∈ queue'.1, name ∈ queue.1 ∨ ReflTransGen (Instantiates design) module.name name

/-- The loop over the cells of `module`: each call on a submodule keeps the queue good,
and the loop adds only modules below `module`. -/
theorem queueCells_spec {fuel : Nat} (spec : QueueSpec design fuel)
    {module : Module} (mem : module ∈ design.modules)
    (bounded : Bounded design (fuel + 1) module.name) :
    ∀ (cells : List Cell) queue, (∀ cell ∈ cells, cell ∈ module.cells) → Good design queue →
      ∃ queue', cells.foldlM (fun queue cell =>
          (design.module cell.type).elim (some queue) fun submodule =>
            moduleQueue design fuel submodule queue) queue = some queue' ∧
        Good design queue' ∧ queue.1 <+: queue'.1 ∧
        (∀ cell ∈ cells, ∀ submodule, design.module cell.type = some submodule →
          submodule.name ∈ queue'.1) ∧
        ∀ name ∈ queue'.1, name ∈ queue.1 ∨ TransGen (Instantiates design) module.name name
  | [], queue, _, good => ⟨queue, rfl, good, List.prefix_refl _, by simp, fun _ mem => .inl mem⟩
  | cell :: cells, queue, cellsMem, good => by
    have cellsMem' : ∀ cell ∈ cells, cell ∈ module.cells := fun c m => cellsMem c (.tail _ m)
    cases found : design.module cell.type with
    | none =>
      obtain ⟨queue', run, good', prefix', added, below⟩ :=
        queueCells_spec spec mem bounded cells queue cellsMem' good
      refine ⟨queue', by simpa [found] using run, good', prefix', ?_, below⟩
      rintro c (_ | ⟨_, cMem⟩) submodule found'
      · simp [found] at found'
      · exact added c cMem submodule found'
    | some submodule =>
      have inst := instantiates_of_cell mem (cellsMem cell (.head _)) found
      obtain ⟨queue₁, run₁, good₁, prefix₁, here₁, below₁⟩ :=
        spec submodule queue (Design.mem_of_module found).1 (bounded _ inst) good
      obtain ⟨queue', run, good', prefix', added, below⟩ :=
        queueCells_spec spec mem bounded cells queue₁ cellsMem' good₁
      refine ⟨queue', by simp [found, run₁, run], good', prefix₁.trans prefix', ?_, ?_⟩
      · rintro c (_ | ⟨_, cMem⟩) submodule' found'
        · rw [found] at found'; cases found'
          exact prefix'.subset here₁
        · exact added c cMem submodule' found'
      · intro name member
        rcases below name member with old | path
        · rcases below₁ name old with older | path₁
          · exact .inl older
          · exact .inr (TransGen.head' inst path₁)
        · exact .inr path

/-- `module_queue` keeps the queue good, only extends it, and adds its module (last) and
only modules below it. -/
theorem moduleQueue_spec (acyclic : Acyclic design) : ∀ fuel, QueueSpec design fuel
  | 0 => fun _ _ _ bounded _ => bounded.elim
  | fuel + 1 => by
    intro module queue mem bounded good
    obtain ⟨sortedIsProcessed, nodup, ordered⟩ := good
    by_cases processed : module.name ∈ queue.2
    · refine ⟨queue, by simp [moduleQueue, processed], ⟨sortedIsProcessed, nodup, ordered⟩,
        List.prefix_refl _, sortedIsProcessed ▸ processed, fun _ mem => .inl mem⟩
    obtain ⟨queue', run, ⟨sortedIsProcessed', nodup', ordered'⟩, prefix', added, below⟩ :=
      queueCells_spec (moduleQueue_spec acyclic fuel) mem bounded module.cells queue
        (fun _ mem => mem) ⟨sortedIsProcessed, nodup, ordered⟩
    have fresh : module.name ∉ queue'.1 := by
      intro member
      rcases below _ member with old | cycle
      · exact processed (sortedIsProcessed ▸ old)
      · exact acyclic _ cycle
    refine ⟨(queue'.1 ++ [module.name], queue'.2 ++ [module.name]),
      by simp only [moduleQueue, processed, if_false]; rw [run]; rfl,
      ⟨by simp [sortedIsProcessed'], ?_, ?_⟩,
      prefix'.trans (List.prefix_append _ _), by simp, ?_⟩
    · exact List.nodup_append.mpr ⟨nodup', List.nodup_singleton _, by simpa using fresh⟩
    · refine ordered'.append_singleton fun child inst => ?_
      obtain ⟨_, found, cell, cellMem, typed, isModule⟩ := inst
      rw [Design.module_of_mem mem] at found; cases found
      obtain ⟨submodule, found'⟩ := Option.isSome_iff_exists.mp isModule
      have := added cell cellMem submodule (typed ▸ found')
      rwa [(Design.mem_of_module found').2] at this
    · intro name member
      rcases List.mem_append.mp member with old | last
      · rcases below name old with older | path
        · exact .inl older
        · exact .inr path.to_reflTransGen
      · rw [List.mem_singleton.mp last]; exact .inr .refl

/-! ## The roots in turn -/

/-- A topological order holds every module instantiated by one of its modules. -/
theorem Topological.closed {order : List IdString} (ordered : Topological design order)
    {name child : IdString} (mem : name ∈ order) (inst : Instantiates design name child) :
    child ∈ order := by
  obtain ⟨before, after, split⟩ := List.append_of_mem mem
  exact split ▸ List.mem_append_left _ (ordered before name after split child inst)

theorem queueRoots_spec (acyclic : Acyclic design) :
    ∀ (roots : List Module) queue, (∀ root ∈ roots, root ∈ design.modules) → Good design queue →
      ∃ queue', roots.foldlM (fun queue root =>
          moduleQueue design (design.modules.length + 1) root queue) queue = some queue' ∧
        Good design queue' ∧ (∀ root ∈ roots, root.name ∈ queue'.1) ∧ queue.1 ⊆ queue'.1 ∧
        ∀ name ∈ queue'.1, name ∈ queue.1 ∨
          ∃ root ∈ roots, ReflTransGen (Instantiates design) root.name name
  | [], queue, _, good => ⟨queue, rfl, good, by simp, fun _ mem => mem, fun _ mem => .inl mem⟩
  | root :: roots, queue, rootsIn, good => by
    have rootIn := rootsIn root (.head _)
    obtain ⟨queue₁, run₁, good₁, prefix₁, here₁, below₁⟩ :=
      moduleQueue_spec acyclic _ root queue rootIn
        (bounded_of_acyclic acyclic (by simp [Design.module_of_mem rootIn])) good
    obtain ⟨queue', run, good', added, sub, below⟩ :=
      queueRoots_spec acyclic roots queue₁ (fun r mem => rootsIn r (.tail _ mem)) good₁
    refine ⟨queue', by simp [run₁, run], good', ?_, prefix₁.subset.trans sub, ?_⟩
    · rintro r (_ | ⟨_, mem⟩)
      · exact sub here₁
      · exact added r mem
    · intro name member
      rcases below name member with old | ⟨r, rMem, path⟩
      · rcases below₁ name old with older | path
        · exact .inl older
        · exact .inr ⟨root, .head _, path⟩
      · exact .inr ⟨r, .tail _ rMem, path⟩

/-- A rank that every instantiation decreases rules out cycles. -/
theorem acyclic_of_rank (rank : IdString → Nat)
    (decreasing : ∀ parent child, Instantiates design parent child → rank child < rank parent) :
    Acyclic design := by
  have descends : ∀ a b, TransGen (Instantiates design) a b → rank b < rank a := by
    intro a b path
    induction path with
    | single step => exact decreasing _ _ step
    | tail _ step below => exact (decreasing _ _ step).trans below
  exact fun name cycle => lt_irrefl _ (descends name name cycle)

/-- What the module loop relies on: on an acyclic design the queue returns distinct names of
modules reachable from the roots, each after every module it instantiates. -/
theorem queueModules_ordered (acyclic : Acyclic design) (roots : List Module)
    (rootsIn : ∀ root ∈ roots, root ∈ design.modules) :
    ∃ sorted, queueModules design (design.modules.length + 1) roots = some (sorted, sorted) ∧
      sorted.Nodup ∧ (∀ name ∈ sorted, ∃ root ∈ roots, ReflTransGen (Instantiates design) root.name name) ∧
      Topological design sorted := by
  obtain ⟨⟨sorted, processed⟩, run, ⟨same, nodup, ordered⟩, -, -, below⟩ :=
    queueRoots_spec acyclic roots ([], []) rootsIn ⟨rfl, List.nodup_nil, by simp [Topological]⟩
  dsimp only at same; subst same
  exact ⟨processed, run, nodup, fun name mem => by simpa using below name mem, ordered⟩

/-- `module_queue` on each root in turn, with one shared `modules_processed` and the fuel
`execute` gives it, terminates on an acyclic design; `modules_sorted` then lists every
module reachable from the roots exactly once and no other, each after every module it
instantiates. -/
theorem queueModules_sorted (acyclic : Acyclic design) (roots : List Module)
    (rootsIn : ∀ root ∈ roots, root ∈ design.modules) :
    ∃ sorted, queueModules design (design.modules.length + 1) roots = some (sorted, sorted) ∧
      sorted.Nodup ∧
      (∀ name, name ∈ sorted ↔ ∃ root ∈ roots, ReflTransGen (Instantiates design) root.name name) ∧
      Topological design sorted := by
  obtain ⟨⟨sorted, processed⟩, run, ⟨same, nodup, ordered⟩, here, -, below⟩ :=
    queueRoots_spec acyclic roots ([], []) rootsIn ⟨rfl, List.nodup_nil, by simp [Topological]⟩
  dsimp only at same; subst same
  refine ⟨processed, run, nodup, fun name => ⟨fun mem => ?_, ?_⟩, ordered⟩
  · simpa using below name mem
  · rintro ⟨root, rootMem, path⟩
    induction path with
    | refl => exact here root rootMem
    | tail _ step reached => exact ordered.closed reached step


/-- A two-level hierarchy: module `top` instantiates module `sub` twice. -/
def twoLevelDesign : Design where
  modules := [⟨.id "\\top", false, true, [], [],
      [⟨1, .id "\\u0", .id "\\sub", []⟩, ⟨2, .id "\\u1", .id "\\sub", []⟩], []⟩,
    ⟨.id "\\sub", false, false, [], [], [], []⟩]
  names_nodup := by decide

theorem twoLevelDesign_acyclic : Acyclic twoLevelDesign :=
  acyclic_of_rank (fun name => if name = .id "\\top" then 1 else 0) <| by
    rintro parent child ⟨module, found, cell, cellMem, rfl, -⟩
    obtain ⟨mem, rfl⟩ := Design.mem_of_module found
    simp only [twoLevelDesign, List.mem_cons, List.mem_singleton, List.not_mem_nil, or_false] at mem
    rcases mem with rfl | rfl <;> simp at cellMem
    rcases cellMem with rfl | rfl <;> decide

theorem queueModules_sorted_twoLevel :
    Acyclic twoLevelDesign ∧ (∀ root ∈ twoLevelDesign.modules, root ∈ twoLevelDesign.modules) ∧
      ∃ sorted, queueModules twoLevelDesign (twoLevelDesign.modules.length + 1)
          twoLevelDesign.modules = some (sorted, sorted) ∧ sorted.Nodup ∧
        (∀ name, name ∈ sorted ↔ ∃ root ∈ twoLevelDesign.modules,
          ReflTransGen (Instantiates twoLevelDesign) root.name name) ∧
        Topological twoLevelDesign sorted :=
  ⟨twoLevelDesign_acyclic, fun _ mem => mem,
    queueModules_sorted twoLevelDesign_acyclic _ fun _ mem => mem⟩

example : queueModules twoLevelDesign 3 twoLevelDesign.modules =
    some ([.id "\\sub", .id "\\top"], [.id "\\sub", .id "\\top"]) := by decide

end SynthesisRepo.Verified
