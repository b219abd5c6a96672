import Chalkboard.Proofs.Reachable

/-! How much room a type takes, and what its size says. A cell of a type takes the room of its leaves. The
size of a tuple is that of its fields together, as they were when it was made, and they stay so; the size of
an array counts the elements of the array itself and leaves out those of an array that is its element. So the
two agree on a type and on all that is inside it just where no array is left out that matters. -/

namespace Chalkboard.Types

open Effects

/-- One graph has the types of another, but for names and for what pointers point to. -/
def Graph.Kindred (g g' : Graph) : Prop :=
  ∀ t < g.nodes.size, t < g'.nodes.size ∧ (g.node t).Kin (g'.node t)

/-- Every tuple has the size of its fields together. -/
def Graph.Totalled (g : Graph) : Prop := ∀ t, (g.node t).Totalled g

section Kindred

variable {g g' : Graph} {t : TypeId} {n n' : Node}

theorem Graph.Kindred.refl (g : Graph) : g.Kindred g := fun _ ht => ⟨ht, .refl _⟩

theorem Node.Kin.parts (h : n.Kin n') : n'.parts = n.parts := by
  cases h <;> rfl

theorem Node.Kin.of_named {name : String} (h : (n.named name).Kin n') : n.Kin n' := by
  cases n <;> cases h <;> constructor

theorem Node.Totalled.named (name : String) (h : n.Totalled g) : (n.named name).Totalled g := by
  cases n <;> exact h

theorem Graph.Kindred.elementSizeFrom_eq (h : g.Kindred g') (ordered : g'.Ordered)
    {size size' : TypeId → Except Fault Value} (fuel : Nat) (ht : t < g.nodes.size)
    (hsize : ∀ u ≤ t, size u = size' u) :
    g.elementSizeFrom size fuel t = g'.elementSizeFrom size' fuel t := by
  induction fuel generalizing t with
  | zero => exact hsize t (Nat.le_refl t)
  | succ fuel ih =>
    have hbelow := ordered t
    obtain ⟨-, hkin⟩ := h t ht
    rw [elementSizeFrom, elementSizeFrom]
    generalize g.node t = n, g'.node t = n' at hkin hbelow
    cases hkin with
    | refl n =>
      cases n with
      | array element axes =>
        have hlt := hbelow element (List.mem_cons_self)
        exact ih (Nat.lt_trans hlt ht) fun u hu => hsize u (Nat.le_trans hu (Nat.le_of_lt hlt))
      | _ => exact hsize t (Nat.le_refl t)
    | _ => exact hsize t (Nat.le_refl t)

theorem Graph.Kindred.sizeFrom_eq (h : g.Kindred g') (ordered : g'.Ordered) (fuel : Nat)
    (ht : t < g.nodes.size) : g.sizeFrom fuel t = g'.sizeFrom fuel t := by
  induction fuel generalizing t with
  | zero => rfl
  | succ fuel ih =>
    have hbelow := ordered t
    obtain ⟨-, hkin⟩ := h t ht
    rw [sizeFrom, sizeFrom]
    generalize g.node t = n, g'.node t = n' at hkin hbelow
    cases hkin with
    | refl n =>
      cases n with
      | array element axes =>
        have hlt := Nat.lt_trans (hbelow element (List.mem_cons_self)) ht
        dsimp only
        rw [h.elementSizeFrom_eq ordered fuel hlt fun u hu => ih (Nat.lt_of_le_of_lt hu hlt)]
      | synonym name of => exact ih (Nat.lt_trans (hbelow of (List.mem_cons_self)) ht)
      | _ => rfl
    | synonym name name' of => exact ih (Nat.lt_trans (hbelow of (List.mem_cons_self)) ht)
    | _ => rfl

theorem Graph.Kindred.size_eq (h : g.Kindred g') (ordered : g'.Ordered) (ht : t < g.nodes.size) :
    g.size t = g'.size t := by
  rw [size, size, h.sizeFrom_eq ordered _ ht]
  exact ordered.sizeFrom_eq t (lt_depth ht) (lt_depth (h t ht).1)

theorem Graph.Kindred.totalSize_eq (h : g.Kindred g') (ordered : g'.Ordered) (total : Value)
    {fields : List (String × TypeId)} (hfields : ∀ field ∈ fields, field.2 < g.nodes.size) :
    g.totalSize total fields = g'.totalSize total fields := by
  induction fields generalizing total with
  | nil => rfl
  | cons field rest ih =>
    have hrest (total : Value) := ih total fun field hmem => hfields field (List.mem_cons_of_mem _ hmem)
    rw [totalSize, totalSize, h.size_eq ordered (hfields field List.mem_cons_self)]
    simp only [hrest]

theorem Node.Totalled.grow (h : g.Kindred g') (ordered : g'.Ordered)
    (hparts : ∀ u ∈ n.parts, u < g.nodes.size) (hn : n.Totalled g) : n.Totalled g' := by
  cases n with
  | tuple name fields size =>
    change g'.totalSize (.int 0) fields = .ok size
    rw [← h.totalSize_eq ordered (.int 0) fun field hmem => hparts field.2 (List.mem_map_of_mem hmem)]
    exact hn
  | _ => trivial

end Kindred

/-- While types are made on the way to a graph, the tuples made so far have the sizes of their fields in it. -/
def Bound (g' : Graph) (s : Types) : Prop :=
  s.graph.Kindred g' → ∀ t < s.graph.nodes.size, (s.graph.node t).Totalled g'

section Bound

variable {g' : Graph} {s s' : Types} {t : TypeId}

theorem Bound.add (ordered : g'.Ordered) {n : Node} (hs : Bound g' s) (hn : s.Addable n) :
    Bound g' { s with graph := (s.graph.add n).2 } := by
  intro h t ht
  have hbefore : s.graph.Kindred g' := fun u hu => by
    have hkin := h u (by rw [Graph.size_add]; exact Nat.lt_succ_of_lt hu)
    rwa [Graph.node_add_ne (Nat.ne_of_lt hu)] at hkin
  change ((s.graph.add n).2.node t).Totalled g'
  by_cases hlast : t = s.graph.nodes.size
  · obtain ⟨-, hkin⟩ := h t ht
    change ((s.graph.add n).2.node t).Kin (g'.node t) at hkin
    subst hlast
    rw [Graph.node_add_self] at hkin ⊢
    exact hn.totalled.grow hbefore ordered fun u hu => ordered _ u (hkin.parts ▸ hu)
  · rw [Graph.node_add_ne hlast]
    change t < (s.graph.add n).2.nodes.size at ht
    rw [Graph.size_add] at ht
    exact hs hbefore t (Nat.lt_of_le_of_ne (Nat.le_of_lt_succ ht) hlast)

theorem Bound.later (hs : Bound g' s) (hlater : Later s s') : Bound g' s' := by
  intro h t ht
  have hsize := hlater.settles.size
  have hbefore : s.graph.Kindred g' := fun u hu => by
    obtain ⟨hlt, hkin⟩ := h u (hsize ▸ hu)
    refine ⟨hlt, ?_⟩
    rcases hlater.settles.node u with hsame | ⟨hopen, target, hnode⟩
    · rwa [hsame] at hkin
    · rw [hnode] at hkin
      generalize s.graph.node u = n, g'.node u = n' at hkin hopen
      cases n with
      | pointer => cases hkin <;> exact .pointer _ _
      | _ => cases hopen
  rcases hlater.settles.node t with hsame | ⟨-, target, hnode⟩
  · rw [hsame]
    exact hs hbefore t (hsize ▸ ht)
  · rw [hnode]
    trivial

theorem Bound.register (hs : Bound g' s) (ht : s.Nameless t) (limits : Limits) (name : String) :
    Bound g' (Types.register limits name t s).2 := by
  rcases register_cases limits name t s with ⟨-, e, hfails⟩ | ⟨-, ⟨e, -, hfails⟩ | ⟨-, hdone⟩⟩
  iterate 2
    · rw [hfails]
      exact hs
  rw [hdone]
  dsimp only
  intro h u hu
  rw [Graph.size_set] at hu
  have hbefore : s.graph.Kindred g' := fun u hu => by
    obtain ⟨hlt, hkin⟩ := h u (by rwa [Graph.size_set])
    refine ⟨hlt, ?_⟩
    by_cases hut : u = t
    · rw [hut, Graph.node_set_self ht.size] at hkin
      rw [hut]
      exact hkin.of_named
    · rwa [Graph.node_set_ne hut] at hkin
  by_cases hut : u = t
  · rw [hut, Graph.node_set_self ht.size]
    exact (hs hbefore t ht.size).named name
  · rw [Graph.node_set_ne hut]
    exact hs hbefore u hu

theorem Bound.change (ordered : g'.Ordered) {limits : Limits} {settling : Prop} (hs : Bound g' s)
    (h : Change limits settling s s') : Bound g' s' := by
  cases h with
  | add hn => exact hs.add ordered hn
  | name name ht => exact hs.register ht limits name
  | settle _ hlater => exact hs.later hlater

theorem readProgram_totalled {s₀ : Types} (hs₀ : s₀.Sound) (h₀ : s₀.graph.Totalled)
    {setting : Reading.Setting} {text : String} {p : Syntax.Program} (ordered : s.graph.Ordered)
    (h : (Reading.readProgram setting text).run s₀ = (.ok p, s)) : s.graph.Totalled := by
  have hstart : Bound s.graph s₀ := by
    refine fun hkindred t ht => (h₀ t).grow hkindred ordered fun u hu => ?_
    rw [← (hkindred t ht).2.parts] at hu
    exact Nat.lt_trans (ordered t u hu) ht
  have hbound := Reading.readProgram_keeps hs₀ hstart (fun _ _ _ hs => hs.change ordered) h
  intro t
  by_cases ht : t < s.graph.nodes.size
  · exact hbound (.refl _) t ht
  · rw [Graph.node_of_size_le (Nat.le_of_not_lt ht)]
    trivial

end Bound

/-- How many elements the axes of an array give. -/
def count (axes : List Axis) : Int :=
  match elementCount axes with
  | .ok (.int n) => n
  | _ => 0

/-- The size of the elements at the bottom of nested arrays, as a number. -/
def Graph.bottomSize (g : Graph) (t : TypeId) : Int :=
  match g.elementSize t with
  | .ok (.int n) => n
  | _ => 0

/-- Whether a type is an array of arrays whose size leaves out elements that take room. -/
def Graph.skips (g : Graph) (t : TypeId) : Bool :=
  match g.node t with
  | .array element axes =>
    match g.node element with
    | .array inner axes' => count axes != 0 && count axes' != 1 && g.bottomSize inner != 0
    | _ => false
  | _ => false

theorem Graph.skips_iff {g : Graph} {t : TypeId} :
    g.skips t = true ↔ ∃ element axes inner axes', g.node t = .array element axes ∧
      g.node element = .array inner axes' ∧ count axes ≠ 0 ∧ count axes' ≠ 1 ∧ g.bottomSize inner ≠ 0 := by
  rw [skips]
  constructor
  · intro h
    split at h
    · rename_i element axes hnode
      split at h
      · rename_i inner axes' hinner
        exact ⟨element, axes, inner, axes', hnode, hinner, by simpa [and_assoc] using h⟩
      · cases h
    · cases h
  · rintro ⟨element, axes, inner, axes', hnode, hinner, hcounts⟩
    rw [hnode]
    dsimp only
    rw [hinner]
    simpa [and_assoc] using hcounts

/-- One type is inside another: as an element or a field, at any depth. -/
def Graph.Holds (g : Graph) : TypeId → TypeId → Prop :=
  Relation.ReflTransGen fun t u => u ∈ (g.node t).inside

end Chalkboard.Types

namespace Chalkboard.Memory

open Chalkboard.Types (TypeId Graph count)

def roomOfTypes (room : TypeId → Int) : List (String × TypeId) → Int
  | [] => 0
  | (_, t) :: fields => room t + roomOfTypes room fields

/-- The room that a cell of a type takes: that of a leaf, or that of its parts. -/
def typeRoomFrom (g : Graph) : Nat → TypeId → Int
  | 0, t => leafRoom g t
  | depth + 1, t =>
    match g.node t with
    | .array element axes => count axes * typeRoomFrom g depth element
    | .tuple _ fields _ => roomOfTypes (typeRoomFrom g depth) fields
    | _ => leafRoom g t

def typeRoom (g : Graph) (t : TypeId) : Int := typeRoomFrom g (g.nodes.size + 1) t

section Room

variable {g : Graph} {t element : TypeId} {axes : List Types.Axis} {c : Cell}

theorem roomOfParts_eq {parts : List Cell} {k : Int} (h : ∀ c ∈ parts, c.room g = k) :
    roomOfParts g parts = parts.length * k := by
  induction parts with
  | nil => simp [roomOfParts]
  | cons c rest ih =>
    rw [roomOfParts, h c List.mem_cons_self, ih fun d hd => h d (List.mem_cons_of_mem _ hd),
      List.length_cons, Int.natCast_succ, Int.add_mul, Int.one_mul, Int.add_comm]

variable {depth : Nat} {fields : List (String × TypeId)} {room : TypeId → Int}

theorem roomOfFields_types {parts : List (String × Cell)} (hlength : parts.length = fields.length)
    (h : ∀ pair ∈ parts.zip fields, pair.1.2.room g = room pair.2.2) :
    roomOfFields g parts = roomOfTypes room fields := by
  induction parts generalizing fields with
  | nil =>
    rw [List.eq_nil_of_length_eq_zero hlength.symm]
    rfl
  | cons part parts ih =>
    obtain _ | ⟨field, fields⟩ := fields
    · cases hlength
    · have hhead := h (part, field) List.mem_cons_self
      rw [roomOfFields, roomOfTypes, hhead,
        ih (Nat.succ.inj hlength) fun pair hpair => h pair (List.mem_cons_of_mem _ hpair)]

theorem roomOfTypes_congr {room' : TypeId → Int}
    (h : ∀ field ∈ fields, room field.2 = room' field.2) : roomOfTypes room fields = roomOfTypes room' fields := by
  induction fields with
  | nil => rfl
  | cons field rest ih =>
    rw [roomOfTypes, roomOfTypes, h field List.mem_cons_self,
      ih fun field hmem => h field (List.mem_cons_of_mem _ hmem)]

theorem Shaped.room_eq (ordered : g.Ordered) (h : Shaped g t c)
    (hdepth : t < g.nodes.size → t < depth) : c.room g = typeRoomFrom g depth t := by
  induction h generalizing depth with
  | @leaf a t v harray htuple =>
    cases depth with
    | zero => rfl
    | succ depth =>
      rw [typeRoomFrom]
      cases hnode : g.node t <;>
        first | rfl | exact absurd hnode (harray _ _) | exact absurd hnode (htuple _ _ _)
  | @array t element axes parts hnode hcount _ ih =>
    have ht := hdepth (Graph.lt_size_of_node (by rw [hnode]; simp))
    obtain _ | depth := depth
    · exact absurd ht (Nat.not_lt_zero t)
    have hlt : element < t := ordered t element (by rw [hnode]; exact List.mem_cons_self)
    have hparts (c : Cell) (hc : c ∈ parts) : c.room g = typeRoomFrom g depth element :=
      ih c hc fun _ => Nat.lt_of_lt_of_le hlt (Nat.le_of_lt_succ ht)
    rw [Cell.room, roomOfParts_eq hparts, typeRoomFrom, hnode]
    dsimp only
    rw [count, hcount]
  | @tuple t name fields size parts hnode hnames _ ih =>
    have ht := hdepth (Graph.lt_size_of_node (by rw [hnode]; simp))
    obtain _ | depth := depth
    · exact absurd ht (Nat.not_lt_zero t)
    have hlength := congrArg List.length hnames
    rw [List.length_map, List.length_map] at hlength
    rw [Cell.room, typeRoomFrom, hnode]
    refine roomOfFields_types hlength fun pair hpair => ih pair hpair fun _ => ?_
    have hfield : pair.2.2 < t := ordered t pair.2.2 (by
      rw [hnode]
      exact List.mem_map_of_mem (List.of_mem_zip hpair).2)
    exact Nat.lt_of_lt_of_le hfield (Nat.le_of_lt_succ ht)

theorem allocate_room (sound : g.Sound) (ht : t < g.nodes.size) (p : Partition) (m : Memory) :
    ∃ c, Shaped g t c ∧ allocate g p t m = (.ok c, m.setNext p (m.next p + typeRoom g t)) := by
  obtain ⟨c, m', hc⟩ := allocateFrom_succeeds (p := p) sound _ t (Graph.lt_depth ht) ht m
  obtain ⟨htype, hlaid, hm'⟩ := allocate_lays sound p t m c m' hc
  have hshaped : Shaped g t c := htype ▸ hlaid.shaped
  refine ⟨c, hshaped, hc.trans ?_⟩
  rw [hm', hshaped.room_eq sound.ordered Graph.lt_depth, typeRoom]

theorem typeRoomFrom_eq (ordered : g.Ordered) (t : TypeId) {depth' : Nat} (h : t < depth)
    (h' : t < depth') : typeRoomFrom g depth t = typeRoomFrom g depth' t := by
  refine Types.depth_irrelevant (typeRoomFrom g) (fun depth depth' t _ _ hbelow => ?_) t h h'
  rw [typeRoomFrom, typeRoomFrom]
  split
  · rename_i element axes hnode
    rw [hbelow element (ordered t element (by rw [hnode]; exact List.mem_cons_self))]
  · rename_i name fields size hnode
    exact roomOfTypes_congr fun field hmem => hbelow field.2 (ordered t field.2 (by
      rw [hnode]
      exact List.mem_map_of_mem hmem))
  · rfl

theorem typeRoomFrom_part (ordered : g.Ordered) {u : TypeId} (hu : u ∈ (g.node t).parts) :
    typeRoomFrom g g.nodes.size u = typeRoom g u := by
  have hlt := Nat.lt_trans (ordered t u hu) (Graph.lt_size_of_link (Types.Node.parts_subset_links hu))
  exact typeRoomFrom_eq ordered u hlt (Graph.lt_depth hlt)

theorem typeRoom_array (ordered : g.Ordered) (hnode : g.node t = .array element axes) :
    typeRoom g t = count axes * typeRoom g element := by
  have hpart : typeRoomFrom g g.nodes.size element = typeRoom g element :=
    typeRoomFrom_part ordered (t := t) (by rw [hnode]; exact List.mem_cons_self)
  rw [← hpart, typeRoom, typeRoomFrom, hnode]

theorem typeRoom_tuple (ordered : g.Ordered) {name : Option String}
    {size : Value} (hnode : g.node t = .tuple name fields size) :
    typeRoom g t = roomOfTypes (typeRoom g) fields := by
  rw [typeRoom, typeRoomFrom, hnode]
  exact roomOfTypes_congr fun field hmem => typeRoomFrom_part ordered (t := t) (by
    rw [hnode]
    exact List.mem_map_of_mem hmem)

theorem typeRoom_leaf (harray : ∀ element axes, g.node t ≠ .array element axes)
    (htuple : ∀ name fields size, g.node t ≠ .tuple name fields size) : typeRoom g t = leafRoom g t := by
  rw [typeRoom, typeRoomFrom]
  cases hnode : g.node t <;>
    first | rfl | exact absurd hnode (harray _ _) | exact absurd hnode (htuple _ _ _)

end Room

section Size

variable {g : Graph} {t u element : TypeId} {axes : List Types.Axis}

theorem size_leafRoom (sound : g.Sound) (ht : t < g.nodes.size) : g.size t = .ok (.int (leafRoom g t)) := by
  obtain ⟨n, hn⟩ := sound.size_ok ht
  rw [leafRoom, hn]

theorem elementCount_count (sound : g.Sound) (hnode : g.node t = .array element axes) :
    Types.elementCount axes = .ok (.int (count axes)) := by
  have hplain := sound.plain t
  rw [hnode] at hplain
  obtain ⟨n, hn⟩ := Types.elementCount_ok hplain.2
  rw [count, hn]

theorem bottomSize_array (ordered : g.Ordered) (hnode : g.node t = .array element axes) :
    g.bottomSize t = g.bottomSize element := by
  have ht : t < g.nodes.size := Graph.lt_size_of_node (by rw [hnode]; simp)
  have hlt := Nat.lt_trans (ordered t element (by rw [hnode]; exact List.mem_cons_self)) ht
  have hbottom : g.elementSize t = g.elementSize element := by
    rw [Graph.elementSize, Graph.elementSizeFrom, hnode]
    exact ordered.elementSizeFrom_eq element hlt (Graph.lt_depth hlt) fun _ _ => rfl
  rw [Graph.bottomSize, hbottom, Graph.bottomSize]

theorem bottomSize_self (harray : ∀ element axes, g.node t ≠ .array element axes) :
    g.bottomSize t = leafRoom g t := by
  have hbottom : g.elementSize t = g.size t := by
    rw [Graph.elementSize, Graph.elementSizeFrom]
    split
    · rename_i element axes hnode
      exact absurd hnode (harray element axes)
    · rfl
  rw [Graph.bottomSize, hbottom]
  rfl

theorem leafRoom_array (sound : g.Sound) (hnode : g.node t = .array element axes) :
    leafRoom g t = count axes * g.bottomSize element := by
  have ht : t < g.nodes.size := Graph.lt_size_of_node (by rw [hnode]; simp)
  have hlt : element < t := sound.ordered t element (by rw [hnode]; exact List.mem_cons_self)
  have hbottom : g.elementSizeFrom (g.sizeFrom g.nodes.size) g.nodes.size element = g.elementSize element :=
    sound.ordered.elementSizeFrom_eq element (Nat.lt_trans hlt ht) (Graph.lt_depth (Nat.lt_trans hlt ht))
      fun u hu => sound.ordered.sizeFrom_eq u (Nat.lt_of_le_of_lt hu (Nat.lt_trans hlt ht))
        (Graph.lt_depth (Nat.lt_of_le_of_lt hu (Nat.lt_trans hlt ht)))
  obtain ⟨v, hv⟩ := sound.ordered.elementSizeFrom_ok (g.nodes.size + 1) element fun u hu => by
    obtain ⟨n, hn⟩ := sound.size_ok (Nat.lt_of_le_of_lt hu (Nat.lt_trans hlt ht))
    exact ⟨_, hn⟩
  obtain ⟨k, rfl⟩ := Types.elementSizeFrom_isSize (fun _ _ h => sound.size_isSize h) _ _ _ hv
  have hsize : g.size t = .ok (.int (count axes * k)) := by
    rw [Graph.size, Graph.sizeFrom, hnode]
    dsimp only
    rw [elementCount_count sound hnode, hbottom, Graph.elementSize, hv]
    rfl
  rw [leafRoom, hsize, Graph.bottomSize, Graph.elementSize, hv]

theorem totalSize_room (sound : g.Sound) {fields : List (String × TypeId)}
    (hfields : ∀ field ∈ fields, field.2 < g.nodes.size) (k : Int) :
    g.totalSize (.int k) fields = .ok (.int (k + roomOfTypes (leafRoom g) fields)) := by
  induction fields generalizing k with
  | nil => simp [Graph.totalSize, roomOfTypes]
  | cons field rest ih =>
    rw [Graph.totalSize, size_leafRoom sound (hfields field List.mem_cons_self)]
    change g.totalSize (.int (k + leafRoom g field.2)) rest = _
    rw [ih fun field hmem => hfields field (List.mem_cons_of_mem _ hmem), roomOfTypes, Int.add_assoc]

theorem leafRoom_tuple (sound : g.Sound) (htotal : g.Totalled) {name : Option String}
    {fields : List (String × TypeId)} {size : Value} (hnode : g.node t = .tuple name fields size) :
    leafRoom g t = roomOfTypes (leafRoom g) fields := by
  have ht : t < g.nodes.size := Graph.lt_size_of_node (by rw [hnode]; simp)
  have hsum := htotal t
  rw [hnode, Types.Node.Totalled, totalSize_room sound, Int.zero_add] at hsum
  · cases hsum
    rw [leafRoom, Graph.size, Graph.sizeFrom, hnode]
  · intro field hmem
    refine Nat.lt_trans (sound.ordered t field.2 ?_) ht
    rw [hnode]
    exact List.mem_map_of_mem hmem

theorem typeRoom_of_not_skips (sound : g.Sound) (htotal : g.Totalled)
    (hskips : ∀ u, g.Holds t u → g.skips u = false) : typeRoom g t = leafRoom g t := by
  induction t using Nat.strongRecOn with
  | ind t ih =>
    have hpart {u : TypeId} (hu : u ∈ (g.node t).inside) (hlt : u < t) : typeRoom g u = leafRoom g u :=
      ih u hlt fun w hw => hskips w (.head hu hw)
    rcases hnode : g.node t with _ | _ | _ | _ | _ | ⟨element, axes⟩ | ⟨name, fields, size⟩ | _ | _
    case array =>
      have hmem : element ∈ (g.node t).inside := by rw [hnode]; exact List.mem_cons_self
      have hlt : element < t := sound.ordered t element (by rw [hnode]; exact List.mem_cons_self)
      rw [typeRoom_array sound.ordered hnode, hpart hmem hlt, leafRoom_array sound hnode]
      by_cases harray : ∃ inner axes', g.node element = .array inner axes'
      · obtain ⟨inner, axes', hinner⟩ := harray
        rw [leafRoom_array sound hinner, bottomSize_array sound.ordered hinner]
        -- one of the three numbers makes up for the count that is left out
        by_cases hnone : count axes = 0
        · rw [hnone, Int.zero_mul, Int.zero_mul]
        by_cases hone : count axes' = 1
        · rw [hone, Int.one_mul]
        by_cases hempty : g.bottomSize inner = 0
        · rw [hempty, Int.mul_zero]
        · have hskip : g.skips t = true :=
            Graph.skips_iff.2 ⟨element, axes, inner, axes', hnode, hinner, hnone, hone, hempty⟩
          rw [hskips t .refl] at hskip
          cases hskip
      · rw [bottomSize_self fun inner axes' hinner => harray ⟨inner, axes', hinner⟩]
    case tuple =>
      rw [typeRoom_tuple sound.ordered hnode, leafRoom_tuple sound htotal hnode]
      refine roomOfTypes_congr fun field hmem => hpart ?_ (sound.ordered t field.2 ?_)
      · rw [hnode]
        exact List.mem_map_of_mem hmem
      · rw [hnode]
        exact List.mem_map_of_mem hmem
    all_goals exact typeRoom_leaf (by simp [hnode]) (by simp [hnode])

theorem not_skips_of_typeRoom (sound : g.Sound) (h : ∀ u, g.Holds t u → typeRoom g u = leafRoom g u) :
    g.skips t = false := by
  refine Bool.eq_false_iff.2 fun hskip => ?_
  obtain ⟨element, axes, inner, axes', hnode, hinner, hnone, hone, hempty⟩ := Graph.skips_iff.1 hskip
  have hwhole := h t .refl
  have hpart := h element (.single (by rw [hnode]; exact List.mem_cons_self))
  rw [typeRoom_array sound.ordered hnode, hpart, leafRoom_array sound hnode, leafRoom_array sound hinner,
    bottomSize_array sound.ordered hinner] at hwhole
  have hsame := Int.eq_of_mul_eq_mul_left hnone hwhole
  exact hone (Int.eq_of_mul_eq_mul_right hempty (hsame.trans (Int.one_mul _).symm))

end Size

/-- Making a cell of a type moves the next free number of the partition by the size of the type, on any
memory, and leaves the other partition's alone. -/
def TakesSize (g : Graph) (t : TypeId) : Prop :=
  ∀ p m, ∃ c m' size, allocate g p t m = (.ok c, m') ∧ g.size t = .ok (.int size) ∧
    m'.next p = m.next p + size ∧ ∀ p', p' ≠ p → m'.next p' = m.next p'

theorem next_setNext_ne {m : Memory} {p p' : Partition} {n : Int} (h : p' ≠ p) :
    (m.setNext p n).next p' = m.next p' := by
  cases p <;> cases p' <;> first | rfl | exact absurd rfl h

theorem takesSize_iff {g : Graph} (sound : g.Sound) {t : TypeId} (ht : t < g.nodes.size) :
    TakesSize g t ↔ typeRoom g t = leafRoom g t := by
  constructor
  · intro h
    obtain ⟨c, m', size, hc, hsize, hnext, -⟩ := h .stack {}
    obtain ⟨c', -, hroom⟩ := allocate_room sound ht .stack {}
    cases hc.symm.trans hroom
    cases (size_leafRoom sound ht).symm.trans hsize
    rw [next_setNext] at hnext
    omega
  · intro h p m
    obtain ⟨c, -, hc⟩ := allocate_room sound ht p m
    exact ⟨c, _, _, hc, size_leafRoom sound ht, by rw [next_setNext, h], fun p' hp' => next_setNext_ne hp'⟩

theorem lt_of_holds {s : Types} (hs : s.Sound) {t u : TypeId} (h : s.graph.Holds t u)
    (ht : t < s.graph.nodes.size) : u < s.graph.nodes.size :=
  hs.lt_of_reaches (h.lift id fun _ _ hu => Types.Node.inside_subset_links hu) ht

end Chalkboard.Memory

namespace Chalkboard.Session

open Chalkboard.Types (TypeId)
open Memory (TakesSize Shaped allocate typeRoom leafRoom)

section Totalled

variable {saved : Option Saved} {setting : Reading.Setting} {text : String} {p : Syntax.Program}
  {types : Types}

theorem totalled_basic : Types.Graph.basic.Totalled := by
  rintro (_ | _ | _ | _ | _) <;> trivial

theorem Opens.totalled (hfit : ∀ kept, saved = some kept → Fit kept.types (some kept.memory))
    (hsaved : ∀ kept, saved = some kept → kept.types.graph.Totalled) (h : Opens saved setting text p types) :
    types.graph.Totalled := by
  have hstart : (saved.elim ({} : Types) fun kept => restored kept.types).graph.Totalled := by
    cases saved with
    | none => exact totalled_basic
    | some kept => exact hsaved kept rfl
  exact Types.readProgram_totalled (fit_opened hfit).sound hstart (h.fit hfit).1.sound.graph.ordered h.read

theorem Reached.totalled (h : Reached saved) : ∀ kept, saved = some kept → kept.types.graph.Totalled := by
  induction h with
  | nothing =>
    intro kept hkept
    cases hkept
  | @run saved setting now types source d hbefore hrun ih =>
    intro kept hkept
    rw [Done.save] at hkept
    split at hkept
    · cases hkept
      exact (runOne_ok hrun).1.totalled hbefore.fit ih
    · exact ih kept hkept

end Totalled

/-- Making a cell of any type of a program succeeds on any memory: it moves the next free number by the room
of the type's leaves and leaves the other partition's alone. The type has a size, and it and all that is
inside it take their sizes just where no array inside it has arrays as elements whose count matters: the size
of an array leaves that count out, unless the array is empty, its elements have one element each or there is
nothing of any size at the bottom. -/
theorem room_is_size_iff_none_skipped {saved : Option Saved} {setting : Reading.Setting} {text : String}
    {p : Syntax.Program} {types : Types} (hsaved : Reached saved) (hopens : Opens saved setting text p types)
    {t : TypeId} (ht : t < types.graph.nodes.size) :
    (∀ q m, ∃ c, Shaped types.graph t c ∧
      allocate types.graph q t m = (.ok c, m.setNext q (m.next q + typeRoom types.graph t))) ∧
    (∃ size : Nat, types.graph.size t = .ok (.int size)) ∧
    ((∀ u, types.graph.Holds t u → TakesSize types.graph u) ↔
      ∀ u, types.graph.Holds t u → types.graph.skips u = false) := by
  have hsound := (hopens.ready hsaved.ready).1.sound
  have htotal := hopens.totalled hsaved.fit hsaved.totalled
  refine ⟨Memory.allocate_room hsound.graph ht, hsound.graph.size_ok ht, fun h u hu => ?_, fun h u hu => ?_⟩
  · refine Memory.not_skips_of_typeRoom hsound.graph fun w hw => ?_
    have hheld := hu.trans hw
    exact (Memory.takesSize_iff hsound.graph (Memory.lt_of_holds hsound hheld ht)).1 (h w hheld)
  · refine (Memory.takesSize_iff hsound.graph (Memory.lt_of_holds hsound hu ht)).2 ?_
    exact Memory.typeRoom_of_not_skips hsound.graph htotal fun w hw => h w (hu.trans hw)

/-- A tuple with a real number and two rows, where a row is a name for an array. -/
def rowedTuple : String :=
  "type row = array [3] of int\ntype t = tuple\nn: real\nr: array [2] of row\nend tuple\nvar x: t\nskip\n"

theorem rowedTuple_takes_size :
    ∃ p types t, Opens none {} rowedTuple p types ∧ t < types.graph.nodes.size ∧
      leafRoom types.graph t = 8 ∧ TakesSize types.graph t := by
  have hreads : reads rowedTuple (fun p types => p.declarations.any fun d =>
      decide (d.type < types.graph.nodes.size) && leafRoom types.graph d.type == 8 &&
        (List.range types.graph.nodes.size).all fun u => !types.graph.skips u) = true := by
    decide +kernel
  obtain ⟨p, types, hopens, hcheck⟩ := of_reads hreads
  obtain ⟨d, -, hd⟩ := List.any_eq_true.1 hcheck
  simp only [Bool.and_eq_true, decide_eq_true_eq, beq_iff_eq, List.all_eq_true, List.mem_range,
    Bool.not_eq_true'] at hd
  obtain ⟨⟨ht, hsize⟩, hskips⟩ := hd
  have hsound := (hopens.ready Reached.nothing.ready).1.sound
  refine ⟨p, types, d.type, hopens, ht, hsize, ?_⟩
  exact (room_is_size_iff_none_skipped .nothing hopens ht).2.2.2
    (fun u hu => hskips u (Memory.lt_of_holds hsound hu ht)) d.type .refl

def nestedRows : String := "var a: array [2] of array [3] of int\nskip\n"

theorem nestedRows_take_more :
    ∃ p types t, Opens none {} nestedRows p types ∧ t < types.graph.nodes.size ∧
      types.graph.size t = .ok (.int 2) ∧
      (∃ c m', allocate types.graph .stack t {} = (.ok c, m') ∧ m'.next .stack = 6) ∧
      ¬TakesSize types.graph t := by
  have hreads : reads nestedRows (fun p types => p.declarations.any fun d =>
      decide (d.type < types.graph.nodes.size) && leafRoom types.graph d.type == 2 &&
        typeRoom types.graph d.type == 6) = true := by
    decide +kernel
  obtain ⟨p, types, hopens, hcheck⟩ := of_reads hreads
  obtain ⟨d, -, hd⟩ := List.any_eq_true.1 hcheck
  simp only [Bool.and_eq_true, decide_eq_true_eq, beq_iff_eq] at hd
  obtain ⟨⟨ht, hsize⟩, hroom⟩ := hd
  have sound := (hopens.ready Reached.nothing.ready).1.sound.graph
  refine ⟨p, types, d.type, hopens, ht, hsize ▸ Memory.size_leafRoom sound ht, ?_, fun htakes => ?_⟩
  · obtain ⟨c, -, hc⟩ := Memory.allocate_room sound ht .stack {}
    exact ⟨c, _, hc, by rw [Memory.next_setNext, hroom]; rfl⟩
  · have hsame := (Memory.takesSize_iff sound ht).1 htakes
    rw [hroom, hsize] at hsame
    cases hsame

end Chalkboard.Session
