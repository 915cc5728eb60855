import SynthesisRepo.Rtlil.Netlist

/-! # Nets and the canonical signal map

A module's connections join bits into nets: `Connected` is the equivalence they
generate.  `SigMap` is the kernel's canonical signal map: a choice of one
representative per net.  The kernel computes it with a union-find whose choice of
representative the pass never relies on except through the two facts a `SigMap`
carries: every bit is on the net of its representative, and bits of one net share it.
-/

namespace SynthesisRepo.Rtlil

open Relation

/-- Two bits are on one net when the connections `conns` join them. -/
def Connected (conns : List (SigBit × SigBit)) : SigBit → SigBit → Prop :=
  EqvGen fun a b => (a, b) ∈ conns

namespace Connected

variable {conns conns' : List (SigBit × SigBit)} {a b c : SigBit}

theorem refl (conns : List (SigBit × SigBit)) (a : SigBit) : Connected conns a a :=
  EqvGen.refl a

theorem symm (h : Connected conns a b) : Connected conns b a := EqvGen.symm _ _ h

theorem trans (hab : Connected conns a b) (hbc : Connected conns b c) : Connected conns a c :=
  EqvGen.trans _ _ _ hab hbc

theorem of_mem (h : (a, b) ∈ conns) : Connected conns a b := EqvGen.rel _ _ h

/-- More connections join at least the same bits. -/
theorem mono (sub : ∀ e ∈ conns, e ∈ conns') (h : Connected conns a b) :
    Connected conns' a b :=
  Relation.EqvGen.mono (fun _ _ mem => sub _ mem) h

/-- Simulation through a map of bits: if `f` sends the ends of every connection of
`conns` onto one net of `conns'`, it sends every net of `conns` into a net of `conns'`. -/
theorem map (f : SigBit → SigBit) (edges : ∀ e ∈ conns, Connected conns' (f e.1) (f e.2))
    (h : Connected conns a b) : Connected conns' (f a) (f b) := by
  induction h with
  | rel x y mem => exact edges (x, y) mem
  | refl x => exact refl _ _
  | symm x y _ ih => exact ih.symm
  | trans x y z _ _ ihxy ihyz => exact ihxy.trans ihyz

/-- A bit that no connection mentions is alone on its net. -/
theorem eq_of_not_mentioned (alone : ∀ e ∈ conns, e.1 ≠ a ∧ e.2 ≠ a)
    (h : Connected conns a b) : b = a := by
  have closed : ∀ x y, Connected conns x y → (x = a ↔ y = a) := by
    intro x y hxy
    induction hxy with
    | rel x y mem =>
      have := alone (x, y) mem
      exact ⟨fun hx => absurd hx this.1, fun hy => absurd hy this.2⟩
    | refl x => exact Iff.rfl
    | symm x y _ ih => exact ih.symm
    | trans x y z _ _ ihxy ihyz => exact ihxy.trans ihyz
  exact (closed a b h).1 rfl

end Connected

/-- The bit a connection of `added` hangs `bit` from: the driving end of the entry whose
driven end is `bit`, or `bit` itself. -/
def leafRoot (added : List (SigBit × SigBit)) (bit : SigBit) : SigBit :=
  ((added.find? fun entry => entry.2 = bit).map Prod.fst).getD bit

theorem leafRoot_of_not_mem {added : List (SigBit × SigBit)} {bit : SigBit}
    (absent : ∀ entry ∈ added, entry.2 ≠ bit) : leafRoot added bit = bit := by
  have missing : (added.find? fun entry => entry.2 = bit) = none :=
    List.find?_eq_none.mpr fun entry mem => by simpa using absent entry mem
  simp [leafRoot, missing]

theorem leafRoot_leaf {added : List (SigBit × SigBit)} (distinct : (added.map Prod.snd).Nodup)
    {entry : SigBit × SigBit} (mem : entry ∈ added) : leafRoot added entry.2 = entry.1 := by
  obtain ⟨found, hfound⟩ := Option.isSome_iff_exists.mp
    (List.find?_isSome.mpr ⟨entry, mem, by simp⟩ : (added.find? fun e => e.2 = entry.2).isSome)
  obtain rfl := List.inj_on_of_nodup_map distinct (List.mem_of_find?_eq_some hfound) mem
    (by simpa using List.find?_some hfound)
  simp [leafRoot, hfound]

/-- Connections whose driven ends are new leaves join no two bits the connections `conns`
keep apart: a net of `conns ++ added` is a net of `conns` once each leaf is read as the bit
it hangs from. -/
theorem Connected.of_append_leaves {conns added : List (SigBit × SigBit)}
    (distinct : (added.map Prod.snd).Nodup)
    (leaves : ∀ e ∈ added, (∀ c ∈ conns, c.1 ≠ e.2 ∧ c.2 ≠ e.2) ∧ ∀ e' ∈ added, e'.1 ≠ e.2)
    {a b : SigBit} (joined : Connected (conns ++ added) a b) :
    Connected conns (leafRoot added a) (leafRoot added b) := by
  refine joined.map _ fun e mem => ?_
  rcases List.mem_append.mp mem with old | new
  · rw [leafRoot_of_not_mem fun e' mem' => ((leaves e' mem').1 e old).1.symm,
      leafRoot_of_not_mem fun e' mem' => ((leaves e' mem').1 e old).2.symm]
    exact .of_mem old
  · rw [leafRoot_of_not_mem fun e' mem' => ((leaves e' mem').2 e new).symm, leafRoot_leaf distinct new]
    exact .refl _ _

/-- Modelled from the spec: `SigMap`, the canonical signal map, "a function from SigBit to
a canonical representative SigBit, reflecting direct point-to-point connections (acts as
union-find over electrically identical bits)". -/
structure SigMap (conns : List (SigBit × SigBit)) where
  map : SigBit → SigBit
  connected : ∀ bit, Connected conns bit (map bit)
  respects : ∀ a b, Connected conns a b → map a = map b

namespace SigMap

variable {conns : List (SigBit × SigBit)} (sigmap : SigMap conns)

instance : CoeFun (SigMap conns) fun _ => SigBit → SigBit := ⟨SigMap.map⟩

/-- Two bits have one representative exactly when they are on one net. -/
theorem eq_iff_connected (a b : SigBit) : sigmap a = sigmap b ↔ Connected conns a b :=
  ⟨fun h => (sigmap.connected a).trans (h ▸ (sigmap.connected b).symm),
    sigmap.respects a b⟩

/-- The canonical map is idempotent. -/
@[simp] theorem map_map (a : SigBit) : sigmap (sigmap a) = sigmap a :=
  (sigmap.respects _ _ (sigmap.connected a)).symm

/-- A bit no connection mentions is its own representative. -/
theorem map_of_not_mentioned {a : SigBit} (alone : ∀ e ∈ conns, e.1 ≠ a ∧ e.2 ≠ a) :
    sigmap a = a :=
  Connected.eq_of_not_mentioned alone (sigmap.connected a)

/-- `SigMap::add(lhs, rhs)` for one pair of bits: the net of `lhs` joins the net of
`rhs`, whose representative stays. -/
def addConnection (map : SigBit → SigBit) (connection : SigBit × SigBit) : SigBit → SigBit :=
  fun bit => if map bit = map connection.1 then map connection.2 else map bit

/-- Adding a connection keeps both facts a canonical map carries. -/
theorem addConnection_spec {map : SigBit → SigBit} (connection : SigBit × SigBit)
    (connected : ∀ bit, Connected conns bit (map bit))
    (respects : ∀ a b, Connected conns a b → map a = map b) :
    (∀ bit, Connected (conns ++ [connection]) bit (addConnection map connection bit)) ∧
      ∀ a b, Connected (conns ++ [connection]) a b →
        addConnection map connection a = addConnection map connection b := by
  have sub : ∀ e ∈ conns, e ∈ conns ++ [connection] := fun _ mem => List.mem_append_left _ mem
  have edge : Connected (conns ++ [connection]) connection.1 connection.2 :=
    .of_mem (List.mem_append_right _ (List.mem_singleton_self _))
  constructor
  · intro bit
    unfold addConnection
    split
    · rename_i same
      exact (((connected bit).trans (same ▸ (connected _).symm)).mono sub).trans
        (edge.trans ((connected _).mono sub))
    · exact (connected bit).mono sub
  · intro a b joined
    induction joined with
    | rel x y mem =>
      rcases List.mem_append.mp mem with old | new
      · simp only [addConnection, respects x y (.of_mem old)]
      · obtain rfl := List.mem_singleton.mp new
        simp [addConnection]
    | refl => rfl
    | symm _ _ _ ih => exact ih.symm
    | trans _ _ _ _ _ ihxy ihyz => exact ihxy.trans ihyz

/-- Adding the connections `rest` in order keeps both facts. -/
theorem foldl_addConnection_spec (rest : List (SigBit × SigBit)) :
    ∀ (conns : List (SigBit × SigBit)) (map : SigBit → SigBit),
      (∀ bit, Connected conns bit (map bit)) → (∀ a b, Connected conns a b → map a = map b) →
      (∀ bit, Connected (conns ++ rest) bit (rest.foldl addConnection map bit)) ∧
        ∀ a b, Connected (conns ++ rest) a b →
          rest.foldl addConnection map a = rest.foldl addConnection map b := by
  induction rest with
  | nil => simpa using fun _ _ connected respects => ⟨connected, respects⟩
  | cons connection rest ih =>
    intro conns map connected respects
    obtain ⟨connected', respects'⟩ := addConnection_spec connection connected respects
    simpa using ih (conns ++ [connection]) _ connected' respects'

theorem foldl_addConnection_id (conns : List (SigBit × SigBit)) :
    (∀ bit, Connected conns bit (conns.foldl addConnection id bit)) ∧
      ∀ a b, Connected conns a b → conns.foldl addConnection id a = conns.foldl addConnection id b := by
  simpa using foldl_addConnection_spec conns [] id (Connected.refl _)
    fun _ _ joined => (Connected.eq_of_not_mentioned (by simp) joined).symm

/-- Modelled from the spec: the canonical map of `conns`, the union-find the spec
describes, joining the connections in order with `addConnection`. -/
def ofConnections (conns : List (SigBit × SigBit)) : SigMap conns where
  map := conns.foldl addConnection id
  connected := (foldl_addConnection_id conns).1
  respects := (foldl_addConnection_id conns).2

end SigMap

end SynthesisRepo.Rtlil
