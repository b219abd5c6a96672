import Chalkboard.Proofs.History
import Chalkboard.Proofs.ReadTypes

/-! The types of a program that is read are closed and finite by value. No open target can be reached from
a type with a name or from the type of a variable, and no type contains itself. So what goes down a type
comes to an end: its size, the question which values it admits, and the making of a cell; and the cells in
memory are built as their types say, with as many leaves, whatever the program does. -/

namespace Chalkboard.Types

open Effects Relation

/-- One type leads to another, through any number of parts and pointers. -/
def Graph.Reaches (g : Graph) : TypeId → TypeId → Prop :=
  ReflTransGen fun t u => u ∈ (g.node t).links

def Graph.Contains (g : Graph) (t u : TypeId) : Prop := u ∈ (g.node t).parts

/-- All that a type leads to is there, and no target among it is open. -/
def Graph.Closed (g : Graph) (t : TypeId) : Prop :=
  ∀ u, g.Reaches t u → u < g.nodes.size ∧ (g.node u).isOpen = false

theorem Shut.closed {s : Types} (hall : ∀ t, s.Registered t → Shut s t) {t : TypeId} (h : Shut s t) :
    s.graph.Closed t := by
  intro u hreach
  have hu : Shut s u := by
    induction hreach with
    | refl => exact h
    | tail _ hlink ih =>
      rename_i u w _
      by_cases hname : s.Registered w
      · exact hall w hname
      · obtain ⟨-, -, hlinks⟩ := ih
        exact hlinks w hlink hname
  obtain ⟨hlt, hopen, -⟩ := hu
  exact ⟨hlt, hopen⟩

section Down

variable {g : Graph} {t u : TypeId}

theorem Graph.Ordered.lt_of_contains (ordered : g.Ordered) (h : TransGen g.Contains t u) : u < t := by
  induction h with
  | single hpart => exact ordered t _ hpart
  | tail _ hpart ih => exact Nat.lt_trans (ordered _ _ hpart) ih

variable {depth depth' : Nat} {size : TypeId → Except Fault Value}

theorem depth_irrelevant {β : Type} (walk : Nat → TypeId → β)
    (hstep : ∀ depth depth' t, t ≤ depth → t ≤ depth' →
      (∀ u < t, walk depth u = walk depth' u) → walk (depth + 1) t = walk (depth' + 1) t)
    (t : TypeId) (h : t < depth) (h' : t < depth') :
    walk depth t = walk depth' t := by
  induction t using Nat.strongRecOn generalizing depth depth' with
  | ind t ih =>
    obtain _ | depth := depth
    · exact absurd h (Nat.not_lt_zero t)
    obtain _ | depth' := depth'
    · exact absurd h' (Nat.not_lt_zero t)
    have hle := Nat.le_of_lt_succ h
    have hle' := Nat.le_of_lt_succ h'
    exact hstep depth depth' t hle hle' fun u hu =>
      ih u hu (Nat.lt_of_lt_of_le hu hle) (Nat.lt_of_lt_of_le hu hle')

theorem Graph.Ordered.elementSizeFrom_eq (ordered : g.Ordered)
    {size' : TypeId → Except Fault Value} {fuel fuel' : Nat} (t : TypeId) (h : t < fuel)
    (h' : t < fuel') (hsize : ∀ u ≤ t, size u = size' u) :
    g.elementSizeFrom size fuel t = g.elementSizeFrom size' fuel' t := by
  induction fuel generalizing t fuel' with
  | zero => exact absurd h (Nat.not_lt_zero t)
  | succ fuel ih =>
    obtain _ | fuel' := fuel'
    · exact absurd h' (Nat.not_lt_zero t)
    rw [elementSizeFrom, elementSizeFrom]
    split
    · rename_i element axes hnode
      have hlt : element < t := ordered t element (by rw [hnode]; exact List.mem_cons_self)
      exact ih element (Nat.lt_of_lt_of_le hlt (Nat.le_of_lt_succ h))
        (Nat.lt_of_lt_of_le hlt (Nat.le_of_lt_succ h'))
        fun u hu => hsize u (Nat.le_trans hu (Nat.le_of_lt hlt))
    · exact hsize t (Nat.le_refl t)

theorem Graph.Ordered.sizeFrom_eq (ordered : g.Ordered) (t : TypeId)
    (h : t < depth) (h' : t < depth') : g.sizeFrom depth t = g.sizeFrom depth' t := by
  refine depth_irrelevant g.sizeFrom (fun depth depth' t hle hle' hbelow => ?_) t h h'
  rw [sizeFrom, sizeFrom]
  split
  · rfl
  · rename_i element axes hnode
    have hlt : element < t := ordered t element (by rw [hnode]; exact List.mem_cons_self)
    rw [ordered.elementSizeFrom_eq element (Nat.lt_of_lt_of_le hlt hle) (Nat.lt_of_lt_of_le hlt hle')
      fun u hu => hbelow u (Nat.lt_of_le_of_lt hu hlt)]
  · rfl
  · rename_i name of hnode
    exact hbelow of (ordered t of (by rw [hnode]; exact List.mem_cons_self))
  · rfl

theorem Graph.Ordered.admitsFrom_eq (ordered : g.Ordered) (v : Value) (t : TypeId) (h : t < depth) (h' : t < depth') :
    g.admitsFrom v depth t = g.admitsFrom v depth' t := by
  refine depth_irrelevant (g.admitsFrom v) (fun depth depth' t _ _ hbelow => ?_) t h h'
  unfold admitsFrom
  rcases hnode : g.node t with _ | _ | _ | _ | _ | ⟨element, axes⟩ | _ | _ | ⟨name, of⟩
  case array => exact hbelow element (ordered t element (by rw [hnode]; exact List.mem_cons_self))
  case synonym => exact hbelow of (ordered t of (by rw [hnode]; exact List.mem_cons_self))
  all_goals rfl

theorem Graph.Ordered.elementSizeFrom_ok (ordered : g.Ordered)
    (fuel : Nat) (t : TypeId) (hsize : ∀ u ≤ t, ∃ v, size u = .ok v) :
    ∃ v, g.elementSizeFrom size fuel t = .ok v := by
  induction fuel generalizing t with
  | zero => exact hsize t (Nat.le_refl t)
  | succ fuel ih =>
    rw [elementSizeFrom]
    split
    · rename_i element axes hnode
      have hlt : element < t := ordered t element (by rw [hnode]; exact List.mem_cons_self)
      exact ih element fun u hu => hsize u (Nat.le_trans hu (Nat.le_of_lt hlt))
    · exact hsize t (Nat.le_refl t)

theorem Graph.Sound.sizeFrom_ok (sound : g.Sound) (depth : Nat) (t : TypeId) (h : t < depth) :
    ∃ v, g.sizeFrom depth t = .ok v := by
  induction depth generalizing t with
  | zero => exact absurd h (Nat.not_lt_zero t)
  | succ depth ih =>
    have hbelow (u : TypeId) (hu : u ∈ (g.node t).parts) : u < depth :=
      Nat.lt_of_lt_of_le (sound.ordered t u hu) (Nat.le_of_lt_succ h)
    have hplain := sound.plain t
    rw [sizeFrom]
    split
    · exact ⟨_, rfl⟩
    · rename_i element axes hnode
      rw [hnode] at hbelow hplain
      obtain ⟨n, hn⟩ := elementCount_ok hplain.2
      obtain ⟨v, hv⟩ := sound.ordered.elementSizeFrom_ok depth element fun u hu =>
        ih u (Nat.lt_of_le_of_lt hu (hbelow element (List.mem_cons_self)))
      obtain ⟨k, rfl⟩ := elementSizeFrom_isSize (fun u w hw => sizeFrom_isSize sound.plain depth u w hw)
        depth element v hv
      rw [hn, except_ok_bind, hv, except_ok_bind]
      exact ⟨_, rfl⟩
    · exact ⟨_, rfl⟩
    · rename_i name of hnode
      rw [hnode] at hbelow
      exact ih of (hbelow of (List.mem_cons_self))
    · exact ⟨_, rfl⟩

theorem Graph.lt_depth (ht : t < g.nodes.size) : t < g.nodes.size + 1 := Nat.lt_succ_of_lt ht

theorem Graph.Sound.size_ok (sound : g.Sound) (ht : t < g.nodes.size) :
    ∃ n : Nat, g.size t = .ok (.int n) := by
  obtain ⟨v, hv⟩ := sound.sizeFrom_ok _ t (lt_depth ht)
  obtain ⟨n, rfl⟩ := sound.size_isSize hv
  exact ⟨n, hv⟩

theorem Graph.Ordered.admitsFrom_error (ordered : g.Ordered) (v : Value) (depth : Nat) (t : TypeId)
    (h : t < depth) {e : Fault} (he : g.admitsFrom v depth t = .error e) :
    e = .misuse .notAdmitted := by
  induction depth generalizing t with
  | zero => exact absurd h (Nat.not_lt_zero t)
  | succ depth ih =>
    have hbelow (u : TypeId) (hu : u ∈ (g.node t).parts) : u < depth :=
      Nat.lt_of_lt_of_le (ordered t u hu) (Nat.le_of_lt_succ h)
    unfold admitsFrom at he
    rcases hnode : g.node t with _ | _ | _ | _ | _ | ⟨element, axes⟩ | _ | _ | ⟨name, of⟩
    all_goals
      rw [hnode] at he hbelow
      dsimp only at he
    case array => exact ih element (hbelow element (List.mem_cons_self)) he
    case synonym => exact ih of (hbelow of (List.mem_cons_self)) he
    case tuple =>
      cases he
      rfl
    all_goals
      split at he <;> cases he

end Down

end Chalkboard.Types

namespace Chalkboard.Memory

open Effects
open Chalkboard.Types (TypeId Graph)

section Allocate

variable {g : Graph} {p : Partition}

theorem mapM_congr {α β : Type} {f f' : α → MemoryM β} {xs : List α} (h : ∀ x ∈ xs, f x = f' x) :
    xs.mapM f = xs.mapM f' := by
  induction xs with
  | nil => rfl
  | cons x xs ih =>
    rw [List.mapM_cons, List.mapM_cons, h x List.mem_cons_self,
      ih fun y hy => h y (List.mem_cons_of_mem _ hy)]

theorem allocateFrom_eq (ordered : g.Ordered) (t : TypeId) {depth depth' : Nat} (h : t < depth)
    (h' : t < depth') : allocateFrom g p depth t = allocateFrom g p depth' t := by
  refine Types.depth_irrelevant (allocateFrom g p) (fun depth depth' t _ _ hbelow => ?_) t h h'
  rw [allocateFrom, allocateFrom]
  split
  · rename_i element axes hnode
    rw [hbelow element (ordered t element (by rw [hnode]; exact List.mem_cons_self))]
  · rename_i name fields size hnode
    have hfields : ∀ field ∈ fields,
        (do return (field.1, ← allocateFrom g p depth field.2) : MemoryM (String × Cell)) =
          (do return (field.1, ← allocateFrom g p depth' field.2)) := fun field hmem => by
      rw [hbelow field.2 (ordered t field.2 (by rw [hnode]; exact List.mem_map_of_mem hmem))]
    exact congrArg (· >>= _) (mapM_congr hfields)
  · rfl

def Succeeds {α : Type} (work : MemoryM α) : Prop := ∀ m, ∃ a m', work m = (.ok a, m')

theorem Succeeds.pure {α : Type} (a : α) : Succeeds (Pure.pure a : MemoryM α) := fun m => ⟨a, m, rfl⟩

theorem Succeeds.bind {α β : Type} {work : MemoryM α} {k : α → MemoryM β} (h : Succeeds work)
    (hk : ∀ a, Succeeds (k a)) : Succeeds (work >>= k) := by
  intro m
  obtain ⟨a, m₁, hm₁⟩ := h m
  rw [bind_apply, hm₁]
  exact hk a m₁

theorem Succeeds.mapM {α β : Type} {f : α → MemoryM β} {xs : List α}
    (h : ∀ x ∈ xs, Succeeds (f x)) : Succeeds (xs.mapM f) :=
  mapM_keeps (fun _ => Succeeds) .pure .bind h

theorem allocateLeaf_succeeds (sound : g.Sound) {t : TypeId} (ht : t < g.nodes.size) :
    Succeeds (allocateLeaf g p t) := by
  intro m
  obtain ⟨n, hn⟩ := sound.size_ok ht
  rw [allocateLeaf, bind_apply, get_apply]
  dsimp only
  rw [bind_apply, lift_apply, hn]
  exact ⟨_, _, rfl⟩

theorem allocateFrom_succeeds (sound : g.Sound) (depth : Nat) (t : TypeId) (h : t < depth)
    (ht : t < g.nodes.size) : Succeeds (allocateFrom g p depth t) := by
  induction depth generalizing t with
  | zero => exact absurd h (Nat.not_lt_zero t)
  | succ depth ih =>
    have hpart (u : TypeId) (hu : u ∈ (g.node t).parts) : Succeeds (allocateFrom g p depth u) :=
      have hlt := sound.ordered t u hu
      ih u (Nat.lt_of_lt_of_le hlt (Nat.le_of_lt_succ h)) (Nat.lt_trans hlt ht)
    have hplain := sound.plain t
    rw [allocateFrom]
    split
    · rename_i element axes hnode
      rw [hnode] at hpart hplain
      obtain ⟨n, hn⟩ := Types.elementCount_ok hplain.2
      rw [hn]
      have hmany : Succeeds (allocateMany (allocateFrom g p depth element) n) := by
        rw [allocateMany_eq]
        exact .mapM fun _ _ => hpart element List.mem_cons_self
      exact hmany.bind fun _ => .pure _
    · rename_i name fields size hnode
      rw [hnode] at hpart
      refine Succeeds.bind (.mapM fun field hmem => ?_) fun _ => .pure _
      exact (hpart field.2 (List.mem_map_of_mem hmem)).bind fun _ => .pure _
    · exact allocateLeaf_succeeds sound ht

end Allocate

section Value

variable {g : Graph}

/-- The one thing that can keep a cell from having a value. -/
abbrev Rowless (e : Fault) : Prop := e = .misuse .divisionByZero

theorem nest_fails (lengths : List Nat) (hne : lengths ≠ []) (items : List Value) :
    FailsAs Rowless (Cell.nest lengths items) := by
  induction lengths generalizing items with
  | nil => exact absurd rfl hne
  | cons n rest ih =>
    obtain _ | ⟨k, rest⟩ := rest
    · exact .ok _
    · rw [Cell.nest]
      dsimp only
      split
      · exact .error rfl
      · exact (FailsAs.mapM fun piece _ => ih (List.cons_ne_nil _ _) piece).bind fun _ _ => .ok _

theorem lengths_ok (sound : g.Sound) {t element : TypeId} {axes : List Types.Axis}
    (hnode : g.node t = .array element axes) :
    ∃ lengths, lengths ≠ [] ∧ Cell.lengths g t = .ok lengths := by
  have hplain := sound.plain t
  rw [hnode] at hplain
  obtain ⟨lengths, hlength, hshape⟩ := Types.shape_ok hplain.2
  have hcounts : (lengths.map fun n : Nat => Value.int n).mapM Cell.countOf = .ok lengths := by
    clear hlength hshape
    induction lengths with
    | nil => rfl
    | cons n rest ih =>
      rw [List.map_cons, List.mapM_cons, ih]
      rfl
  refine ⟨lengths, ?_, ?_⟩
  · rintro rfl
    exact hplain.1 (List.eq_nil_of_length_eq_zero hlength.symm)
  · rw [Cell.lengths, hnode]
    dsimp only
    rw [hshape, except_ok_bind, hcounts]

theorem partValues_fails {P : Fault → Prop} {parts : List Cell}
    (h : ∀ c ∈ parts, FailsAs P (c.value g)) : FailsAs P (Cell.partValues g parts) := by
  induction parts with
  | nil => exact .ok _
  | cons c rest ih =>
    rw [Cell.partValues]
    exact (h c List.mem_cons_self).bind fun _ _ =>
      (ih fun d hd => h d (List.mem_cons_of_mem _ hd)).bind fun _ _ => .ok _

theorem fieldValues_fails {P : Fault → Prop} {parts : List (String × Cell)}
    (h : ∀ part ∈ parts, FailsAs P (part.2.value g)) : FailsAs P (Cell.fieldValues g parts) := by
  induction parts with
  | nil => exact .ok _
  | cons part rest ih =>
    rw [Cell.fieldValues]
    exact (h part List.mem_cons_self).bind fun _ _ =>
      (ih fun d hd => h d (List.mem_cons_of_mem _ hd)).bind fun _ _ => .ok _

theorem exists_mem_zip {α β : Type} {xs : List α} {ys : List β} (h : xs.length = ys.length) {x : α}
    (hx : x ∈ xs) : ∃ y, (x, y) ∈ xs.zip ys := by
  induction xs generalizing ys with
  | nil => cases hx
  | cons x' xs ih =>
    obtain _ | ⟨y, ys⟩ := ys
    · cases h
    rcases List.mem_cons.1 hx with rfl | hx
    · exact ⟨y, List.mem_cons_self⟩
    · obtain ⟨y', hy'⟩ := ih (Nat.succ.inj h) hx
      exact ⟨y', List.mem_cons_of_mem _ hy'⟩

theorem Shaped.value (sound : g.Sound) {t : TypeId} {c : Cell} (h : Shaped g t c) :
    FailsAs Rowless (c.value g) := by
  induction h with
  | leaf a v _ _ =>
    rw [Cell.value]
    exact .ok _
  | array hnode _ _ ih =>
    obtain ⟨lengths, hne, hlengths⟩ := lengths_ok sound hnode
    rw [Cell.value, hlengths]
    exact (partValues_fails ih).bind fun values _ => nest_fails lengths hne values
  | tuple _ hnames _ ih =>
    rw [Cell.value]
    refine (fieldValues_fails fun part hpart => ?_).bind fun _ _ => .ok _
    have hlength := congrArg List.length hnames
    rw [List.length_map, List.length_map] at hlength
    obtain ⟨field, hpair⟩ := exists_mem_zip hlength hpart
    exact ih _ hpair

end Value

section Count

variable {g : Graph}

def countTypes (count : TypeId → Nat) : List (String × TypeId) → Nat
  | [] => 0
  | (_, t) :: fields => count t + countTypes count fields

def leafCountFrom (g : Graph) : Nat → TypeId → Nat
  | 0, _ => 1
  | depth + 1, t =>
    match g.node t with
    | .array element axes =>
      match Types.elementCount axes with
      | .ok (.int n) => n.toNat * leafCountFrom g depth element
      | _ => 0
    | .tuple _ fields _ => countTypes (leafCountFrom g depth) fields
    | _ => 1

def leafCount (g : Graph) (t : TypeId) : Nat := leafCountFrom g (g.nodes.size + 1) t

theorem countParts_eq {parts : List Cell} {k : Nat} (h : ∀ c ∈ parts, c.count = k) :
    Cell.countParts parts = parts.length * k := by
  induction parts with
  | nil => simp [Cell.countParts]
  | cons c rest ih =>
    rw [Cell.countParts, h c List.mem_cons_self, ih fun d hd => h d (List.mem_cons_of_mem _ hd),
      List.length_cons, Nat.succ_mul, Nat.add_comm]

theorem countFields_eq {count : TypeId → Nat} {parts : List (String × Cell)}
    {fields : List (String × TypeId)} (hlength : parts.length = fields.length)
    (h : ∀ pair ∈ parts.zip fields, pair.1.2.count = count pair.2.2) :
    Cell.countFields parts = countTypes count fields := by
  induction parts generalizing fields with
  | nil =>
    rw [List.eq_nil_of_length_eq_zero hlength.symm]
    rfl
  | cons part parts ih =>
    obtain _ | ⟨field, fields⟩ := fields
    · cases hlength
    · have hhead := h (part, field) List.mem_cons_self
      rw [Cell.countFields, countTypes, hhead,
        ih (Nat.succ.inj hlength) fun pair hpair => h pair (List.mem_cons_of_mem _ hpair)]

theorem Shaped.count_eq (ordered : g.Ordered) {t : TypeId} {c : Cell} (h : Shaped g t c) {depth : Nat}
    (hdepth : t < g.nodes.size → t < depth) : c.count = leafCountFrom g depth t := by
  induction h generalizing depth with
  | @leaf a t v harray htuple =>
    cases depth with
    | zero => rfl
    | succ depth =>
      rw [leafCountFrom]
      cases hnode : g.node t <;>
        first | rfl | exact absurd hnode (harray _ _) | exact absurd hnode (htuple _ _ _)
  | array hnode hcount _ ih =>
    rename_i t element axes parts _
    have ht := hdepth (Types.Graph.lt_size_of_node (by rw [hnode]; simp))
    obtain _ | depth := depth
    · exact absurd ht (Nat.not_lt_zero t)
    have hlt : element < t := ordered t element (by rw [hnode]; exact List.mem_cons_self)
    have hparts (c : Cell) (hc : c ∈ parts) : c.count = leafCountFrom g depth element :=
      ih c hc fun _ => Nat.lt_of_lt_of_le hlt (Nat.le_of_lt_succ ht)
    rw [Cell.count, countParts_eq hparts, leafCountFrom, hnode]
    dsimp only
    rw [hcount]
    dsimp only
    rw [Int.toNat_natCast]
  | tuple hnode hnames _ ih =>
    rename_i t name fields size parts _
    have ht := hdepth (Types.Graph.lt_size_of_node (by rw [hnode]; simp))
    obtain _ | depth := depth
    · exact absurd ht (Nat.not_lt_zero t)
    have hlength := congrArg List.length hnames
    rw [List.length_map, List.length_map] at hlength
    rw [Cell.count, leafCountFrom, hnode]
    refine countFields_eq hlength fun pair hpair => ih pair hpair fun _ => ?_
    have hfield : pair.2.2 < t := ordered t pair.2.2 (by
      rw [hnode]
      exact List.mem_map_of_mem (List.of_mem_zip hpair).2)
    exact Nat.lt_of_lt_of_le hfield (Nat.le_of_lt_succ ht)

end Count

section Write

variable {g : Graph}

variable {c : Cell} {t : TypeId} {α : Type}

theorem mem_modify {f : α → α} {i : Nat} {xs : List α} {x : α} (h : x ∈ xs.modify i f) :
    x ∈ xs ∨ ∃ y ∈ xs, x = f y := by
  induction xs generalizing i with
  | nil =>
    rw [List.modify_nil] at h
    cases h
  | cons y ys ih =>
    cases i with
    | zero =>
      rcases List.mem_cons.1 h with rfl | h
      · exact .inr ⟨y, List.mem_cons_self, rfl⟩
      · exact .inl (List.mem_cons_of_mem _ h)
    | succ i =>
      rcases List.mem_cons.1 h with rfl | h
      · exact .inl List.mem_cons_self
      · exact (ih h).imp (List.mem_cons_of_mem _) fun ⟨z, hz, hx⟩ => ⟨z, List.mem_cons_of_mem _ hz, hx⟩

theorem zip_modify {β : Type} (f : α → α) (i : Nat) (xs : List α) (ys : List β) :
    (xs.modify i f).zip ys = (xs.zip ys).modify i fun pair => (f pair.1, pair.2) := by
  induction xs generalizing i ys with
  | nil => simp
  | cons x xs ih =>
    cases ys with
    | nil => simp
    | cons y ys =>
      cases i with
      | zero => rfl
      | succ i =>
        simp only [List.modify_succ_cons, List.zip_cons_cons]
        rw [ih]

theorem map_fst_modify (f : Cell → Cell) (i : Nat) (parts : List (String × Cell)) :
    (parts.modify i fun part => (part.1, f part.2)).map (·.1) = parts.map (·.1) := by
  induction parts generalizing i with
  | nil => simp
  | cons part rest ih =>
    cases i with
    | zero => rfl
    | succ i =>
      simp only [List.modify_succ_cons, List.map_cons]
      rw [ih]

theorem Shaped.write (h : Shaped g t c) (v : Value) (path : List Nat) :
    Shaped g t (c.write v path) := by
  induction h generalizing path with
  | leaf a old harray htuple =>
    cases path with
    | nil => exact .leaf a v harray htuple
    | cons => exact .leaf a old harray htuple
  | array hnode hcount hparts ih =>
    cases path with
    | nil => exact .array hnode hcount hparts
    | cons i path =>
      rw [Cell.write]
      refine .array hnode (by rwa [List.length_modify]) fun c hc => ?_
      rcases mem_modify hc with hold | ⟨d, hd, rfl⟩
      · exact hparts c hold
      · exact ih d hd path
  | tuple hnode hnames hparts ih =>
    cases path with
    | nil => exact .tuple hnode hnames hparts
    | cons i path =>
      rw [Cell.write]
      refine .tuple hnode ((map_fst_modify _ i _).trans hnames) fun pair hpair => ?_
      rw [zip_modify] at hpair
      rcases mem_modify hpair with hold | ⟨old, hold, rfl⟩
      · exact hparts pair hold
      · exact ih old hold path

theorem Shaped.type_eq (h : Shaped g t c) : c.type = t := by
  cases h <;> rfl

end Write

end Chalkboard.Memory

namespace Chalkboard.Run

open Effects Relation
open Reading (readProgram)
open Memory (Address Cell Location Shaped)

/-- Something holds of every variable and every block. -/
def Each (P : Cell → Prop) (m : Memory) : Prop := ∀ c, m.Owns c → P c

/-- Every variable and every block is built as its type says. -/
def AllShaped (g : Types.Graph) (m : Memory) : Prop := ∀ c, m.Owns c → Shaped g c.type c

section Turns

variable {f : Frame} {g : Types.Graph} {m m' : Memory} {events : History} {P : Cell → Prop}

theorem each_start : Each P {} := by
  rintro c (⟨name, hmem⟩ | ⟨a, hmem⟩) <;> cases hmem

theorem Each.setNext (h : Each P m) (p : Memory.Partition) (n : Int) : Each P (m.setNext p n) := by
  cases p <;> exact h

theorem owns_of_write {here : Location} {v : Value} {c : Cell} (h : (m.write here v).Owns c) :
    m.Owns c ∨ ∃ d, m.Owns d ∧ c = d.write v here.path := by
  obtain ⟨root, path⟩ := here
  cases root with
  | stack name =>
    rcases h with ⟨name', hmem⟩ | hheap
    · obtain ⟨⟨n, d⟩, hd, heq⟩ := List.mem_map.1 hmem
      cases heq
      split
      · exact .inr ⟨d, .inl ⟨_, hd⟩, rfl⟩
      · exact .inl (.inl ⟨_, hd⟩)
    · exact .inl (.inr hheap)
  | heap a =>
    rcases h with hstack | ⟨a', hmem⟩
    · exact .inl (.inl hstack)
    · obtain ⟨⟨b, d⟩, hd, heq⟩ := List.mem_map.1 hmem
      cases heq
      split
      · exact .inr ⟨d, .inr ⟨_, hd⟩, rfl⟩
      · exact .inl (.inr ⟨_, hd⟩)

theorem Each.write (h : Each P m) {here : Location} {v : Value} (hwrite : ∀ c, P c → P (c.write v here.path)) :
    Each P (m.write here v) := by
  intro c hc
  rcases owns_of_write hc with hold | ⟨d, hd, rfl⟩
  · exact h c hold
  · exact hwrite d (h d hd)

theorem Each.push (h : Each P m) (name : String) {c : Cell} (hc : P c) :
    Each P { m with stack := m.stack ++ [(name, c)] } := by
  rintro d (⟨name', hmem⟩ | hheap)
  · rcases List.mem_append.1 hmem with hold | hnew
    · exact h d (.inl ⟨name', hold⟩)
    · cases List.mem_singleton.1 hnew
      exact hc
  · exact h d (.inr hheap)

theorem Each.enter (h : Each P m) (a : Address) {c : Cell} (hc : P c) :
    Each P { m with heap := Memory.enter a c m.heap } := by
  rintro d (hstack | ⟨b, hmem⟩)
  · exact h d (.inl hstack)
  · rcases Memory.mem_enter hmem with hold | rfl
    · exact h d (.inr ⟨b, hold⟩)
    · exact hc

theorem Each.erase (h : Each P m) (a : Address) : Each P (m.erase a) := by
  rintro d (hstack | ⟨b, hmem⟩)
  · exact h d (.inl hstack)
  · exact h d (.inr ⟨b, (List.mem_filter.1 hmem).1⟩)

/-- What holds of every variable and every block still does after a turn, if writing keeps it and what is laid
out has it. -/
theorem Each.turn (h : Each P m) (hturn : Turn f m events m')
    (hwrite : ∀ c v path, P c → P (c.write v path))
    (hlaid : ∀ {p c}, Memory.Laid f.types.graph p (m.next p) c → P c) : Each P m' := by
  cases hturn with
  | still => exact h
  | moved n _ => exact h.setNext .stack n
  | declared _ hc _ => exact (h.setNext .stack _).push _ (hlaid hc)
  | wrote _ _ _ => exact h.write fun c => hwrite c _ _
  | stored _ _ _ hc _ hm' =>
    subst hm'
    exact ((h.setNext .heap _).write fun c => hwrite c _ _).enter _ (hlaid hc)
  | removed _ _ _ => exact (h.erase _).write fun c => hwrite c _ _

theorem shaped_write {c : Cell} (h : Shaped g c.type c) (v : Value) (path : List Nat) :
    Shaped g (c.write v path).type (c.write v path) := by
  have hwrite := h.write v path
  rwa [← hwrite.type_eq] at hwrite

theorem AllShaped.turn (h : AllShaped f.types.graph m) (hturn : Turn f m events m') :
    AllShaped f.types.graph m' :=
  Each.turn h hturn (fun _ v path hc => shaped_write hc v path) fun hlaid => hlaid.shaped

end Turns

/-- A program that was read. No open target can be reached from a type with a name, nor from the type of
a variable, and no type contains itself. What goes down a type ends, at the latest at a depth that its
place gives: every type has a size, every type but a tuple can be asked what it admits, and a cell of
every type can be made. After any number of steps every variable and every block is built as its type
says, with as many leaves, and it has a value, unless an axis inside an array has no length. -/
theorem types_closed_and_finite {setting : Reading.Setting} {text : String} {p : Syntax.Program}
    {types : Types} (hread : (readProgram setting text).run {} = (.ok p, types)) :
    let g := types.graph
    (∀ entry ∈ types.registry.types, ∃ t, entry.2 = .settled t ∧ g.Closed t) ∧
    (∀ d ∈ p.declarations, g.Closed d.type) ∧
    (∀ t, ¬TransGen g.Contains t t) ∧
    (∀ t < g.nodes.size,
      (∀ depth, t < depth → g.sizeFrom depth t = g.size t ∧
        (∀ v, g.admitsFrom v depth t = g.admits t v) ∧
        ∀ q, Memory.allocateFrom g q depth t = Memory.allocate g q t) ∧
      (∃ n : Nat, g.size t = .ok (.int n)) ∧
      (∀ v e, g.admits t v = .error e → e = .misuse .notAdmitted) ∧
      ∀ q m, ∃ c m', Memory.allocate g q t m = (.ok c, m') ∧ Shaped g t c) ∧
    ∀ limits indexing n c,
      (chronicle ⟨types, limits, indexing⟩ p n).2.situation.memory.Owns c →
        Shaped g c.type c ∧ c.count = Memory.leafCount g c.type ∧
          ∀ e, c.value g = .error e → e = .misuse .divisionByZero := by
  intro g
  obtain ⟨hsound, hnames, hvariables⟩ := Reading.readProgram_shut hread
  have sound := hsound.graph
  refine ⟨fun entry hmem => ?_, fun d hd => (hvariables d hd).2.closed hnames, fun t hself => ?_,
    fun t ht => ⟨fun depth hdepth => ?_, sound.size_ok ht, fun v e he => ?_, fun q m => ?_⟩,
    fun limits indexing n c hc => ?_⟩
  · obtain ⟨t, heq, -, -⟩ := hsound.names entry hmem
    have hname : types.Registered t := ⟨entry.1, heq ▸ hmem⟩
    exact ⟨t, heq, (hnames t hname).closed hnames⟩
  · exact Nat.lt_irrefl t (sound.ordered.lt_of_contains hself)
  · have hplace := Types.Graph.lt_depth ht
    exact ⟨sound.ordered.sizeFrom_eq t hdepth hplace,
      fun v => sound.ordered.admitsFrom_eq v t hdepth hplace,
      fun q => Memory.allocateFrom_eq sound.ordered t hdepth hplace⟩
  · exact sound.ordered.admitsFrom_error v _ t (Types.Graph.lt_depth ht) he
  · obtain ⟨c, m', hmade⟩ := Memory.allocateFrom_succeeds (p := q) sound _ t (Types.Graph.lt_depth ht) ht m
    obtain ⟨htype, hlaid, -⟩ := Memory.allocate_lays sound q t m c m' hmade
    exact ⟨c, m', hmade, htype ▸ hlaid.shaped⟩
  · have hall := chronicle_history (f := ⟨types, limits, indexing⟩) (J := fun m _ => AllShaped g m)
      (I := fun m _ => AllShaped g m) sound (fun _ _ h => h) (fun _ _ _ _ h hturn => h.turn hturn)
      (fun _ _ n _ h => Each.setNext h .heap n) each_start p n
    exact ⟨hall c hc, (hall c hc).count_eq sound.ordered Types.Graph.lt_depth, (hall c hc).value sound⟩

/-- A list whose cells hold an array, beside an array that has rows but no columns. -/
def taggedList : String :=
  "type list = pointer of cell\n" ++
  "type cell = tuple\n item: int\n tags: array [2] of char\n next: list\nend tuple\n" ++
  "var head: list\nvar grid: array [2, 0] of char\nalloc(head)\nalloc(head->next)\n"

theorem taggedList_end :
    passes (readProgram {} taggedList) {} (fun p types =>
      let g := types.graph
      let m := (chronicle ⟨types, {}, true⟩ p 4).2.situation.memory
      p.declarations.map (·.type) == [5, 8] && g.nodes.size == 9 && (g.node 5).links == [4] &&
        (g.node 4).links == [7] && (g.node 7).links == [0, 6, 5] &&
        m.heap.map (·.2.type) == [7, 7] && Memory.leafCount g 7 == 4) = true := by
  decide +kernel

theorem taggedList_closed_and_finite :
    ∃ p types, (readProgram {} taggedList).run {} = (.ok p, types) ∧
      let g := types.graph
      let m := (chronicle ⟨types, {}, true⟩ p 4).2.situation.memory
      (g.Closed 5 ∧ TransGen (fun t u => u ∈ (g.node t).links) 5 5 ∧ ¬TransGen g.Contains 5 5) ∧
        (∃ n : Nat, g.size 7 = .ok (.int n)) ∧
        ∀ block ∈ m.heap, Shaped g 7 block.2 ∧ block.2.count = 4 := by
  obtain ⟨p, types, hread, hcheck⟩ := of_passes taggedList_end
  simp only [Bool.and_eq_true, beq_iff_eq] at hcheck
  obtain ⟨⟨⟨⟨⟨⟨hvariables, hsize⟩, hlist⟩, hpointer⟩, hcell⟩, hheap⟩, hcount⟩ := hcheck
  obtain ⟨-, hclosed, hfinite, hdown, hcells⟩ := types_closed_and_finite hread
  refine ⟨p, types, hread, ⟨?_, ?_, hfinite 5⟩, (hdown 7 (by rw [hsize]; decide)).2.1,
    fun block hblock => ?_⟩
  · have hmem : 5 ∈ p.declarations.map (·.type) := by
      rw [hvariables]
      simp
    obtain ⟨d, hd, hfive⟩ := List.mem_map.1 hmem
    rw [← hfive]
    exact hclosed d hd
  · have hfirst : 4 ∈ (types.graph.node 5).links := by simp [hlist]
    have hsecond : 7 ∈ (types.graph.node 4).links := by simp [hpointer]
    have hthird : 5 ∈ (types.graph.node 7).links := by simp [hcell]
    exact .head hfirst (.head hsecond (.single hthird))
  · obtain ⟨hshaped, hleaves, -⟩ := hcells {} true 4 block.2 (.inr ⟨block.1, hblock⟩)
    have htype : block.2.type ∈ (chronicle ⟨types, {}, true⟩ p 4).2.situation.memory.heap.map
        (·.2.type) := List.mem_map_of_mem hblock
    rw [hheap] at htype
    have hseven : block.2.type = 7 := by simpa using htype
    rw [hseven] at hshaped hleaves
    exact ⟨hshaped, hleaves.trans hcount⟩

end Chalkboard.Run
