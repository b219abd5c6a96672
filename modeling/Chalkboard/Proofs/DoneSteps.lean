import Chalkboard.Proofs.FailedSteps

/-! What steps that are done keep: every cell is built as its type says, and has a type that a declared type
leads to. What every step that is done keeps holds between any two steps of a run. -/

namespace Chalkboard.Types

/-- The types of the cells that a cell of a type is made of. -/
def Node.inside : Node → List TypeId
  | .array element _ => [element]
  | .tuple _ fields _ => fields.map (·.2)
  | _ => []

theorem Node.inside_subset_links {n : Node} : n.inside ⊆ n.links := by
  rcases n with _ | _ | _ | _ | ⟨_ | _⟩ | _ | _ | _ | _
  case array => exact List.Subset.refl _
  case tuple => exact List.Subset.refl _
  all_goals exact List.nil_subset _

/-- A kind of types that goes over to the cells inside a cell, and to the blocks that a pointer is given. -/
structure Graph.Heritable (g : Graph) (K : TypeId → Prop) : Prop where
  inside {t u : TypeId} (ht : K t) (hu : u ∈ (g.node t).inside) : K u
  target {t p target u : TypeId} (ht : K t) (hp : g.closure t = .ok p)
    (hnode : g.node p = .pointer (.settled target)) (hu : g.closure target = .ok u) : K u

section Heritable

variable {g : Graph} {K : TypeId → Prop} {t u : TypeId}

theorem Graph.closure_keeps (hK : ∀ t u, K t → u ∈ (g.node t).links → K u)
    (h : g.closure t = .ok u) (ht : K t) : K u := by
  refine closure_induct (P := fun t => K t → K u) h (fun _ => id) (fun t of hmeant hof ht => hof ?_) ht
  exact hK t of ht (Node.parts_subset_links (Node.meant_mem_parts hmeant))

theorem Graph.heritable_of_links (hK : ∀ t u, K t → u ∈ (g.node t).links → K u) : g.Heritable K where
  inside ht hu := hK _ _ ht (Node.inside_subset_links hu)
  target ht hp hnode hu := by
    refine closure_keeps hK hu (hK _ _ (closure_keeps hK hp ht) ?_)
    rw [hnode]
    exact List.mem_cons_self

end Heritable

end Chalkboard.Types

namespace Chalkboard.Memory

open Chalkboard.Types (TypeId Graph)

section Shaped

variable {g : Graph} {K : TypeId → Prop}

variable {c d : Cell} {t : TypeId}

theorem Shaped.part (h : Shaped g t c) {i : Nat} (hd : c.part? i = some d) :
    ∃ u ∈ (g.node t).inside, Shaped g u d := by
  cases h with
  | leaf => cases hd
  | array hnode _ hparts =>
    rename_i element axes parts _
    exact ⟨element, by rw [hnode]; exact List.mem_cons_self, hparts d (List.mem_of_getElem? hd)⟩
  | tuple hnode hnames hparts =>
    rename_i name fields size parts
    obtain ⟨part, hpart, rfl⟩ := Option.map_eq_some_iff.1 hd
    have hlength := congrArg List.length hnames
    rw [List.length_map, List.length_map] at hlength
    have hi : i < fields.length := hlength ▸ (List.getElem?_eq_some_iff.1 hpart).1
    have hpair : (part, fields[i]) ∈ parts.zip fields := by
      refine List.mem_of_getElem? (i := i) ?_
      rw [List.getElem?_zip_eq_some]
      exact ⟨hpart, List.getElem?_eq_getElem hi⟩
    refine ⟨fields[i].2, ?_, hparts _ hpair⟩
    rw [hnode]
    exact List.mem_map_of_mem (List.getElem_mem hi)

theorem Shaped.at (hK : g.Heritable K) (h : Shaped g t c) (ht : K t)
    {path : List Nat} (hd : c.at? path = some d) : Shaped g d.type d ∧ K d.type := by
  induction path generalizing c t with
  | nil =>
    cases hd
    rw [h.type_eq]
    exact ⟨h, ht⟩
  | cons i path ih =>
    obtain ⟨part, hpart, hd⟩ := Option.bind_eq_some_iff.1 hd
    obtain ⟨u, hu, hshaped⟩ := h.part hpart
    exact ih hshaped (hK.inside ht hu) hd

end Shaped

end Chalkboard.Memory

namespace Chalkboard.Run

open Effects
open Syntax (Expr Variable Sentence Action Item Program)
open Chalkboard.Types (TypeId Graph)
open Memory (MemoryM Address Cell Location Laid Shaped)

/-- Every variable and every block is built as its type says, and its type is of some kind. -/
def Built (g : Graph) (K : TypeId → Prop) (m : Memory) : Prop :=
  ∀ c, m.Owns c → Shaped g c.type c ∧ K c.type

section Built

variable {f : Frame} {g : Graph} {K : TypeId → Prop} {m m' : Memory}

theorem built_start : Built g K {} := each_start

theorem Built.at (hK : g.Heritable K) (h : Built g K m) {owner c : Cell} (howner : m.Owns owner)
    {path : List Nat} (hc : owner.at? path = some c) : Shaped g c.type c ∧ K c.type :=
  (h owner howner).1.at hK (h owner howner).2 hc

theorem Built.cellAt? (hK : g.Heritable K) (h : Built g K m) {here : Location} {c : Cell}
    (hc : m.cellAt? here = some c) : Shaped g c.type c ∧ K c.type := by
  obtain ⟨owner, howner, hat⟩ := Memory.owns_of_cellAt? hc
  exact h.at hK howner hat

theorem Built.write (h : Built g K m) (here : Location) (v : Value) : Built g K (m.write here v) := by
  refine Each.write h fun c hc => ?_
  have hwrite := hc.1.write v here.path
  rw [hwrite.type_eq]
  exact ⟨hwrite, hc.2⟩

theorem Built.done (hK : f.types.graph.Heritable K) {item : Item} {next : Option Nat}
    (hdeclared : ∀ d, item.action = .declare d → K d.type) (h : Built f.types.graph K m)
    (hdone : Done f m item next m') : Built f.types.graph K m' := by
  cases hdone with
  | kept => exact h
  | wrote => exact h.write _ _
  | declared haction htype hlaid =>
    exact (Each.setNext h .stack _).push _ ⟨hlaid.shaped, htype ▸ hdeclared _ haction⟩
  | stored haction hat hp hnode htarget hlaid hm₁ =>
    subst hm₁
    have hblock := hK.target (h.cellAt? hK hat).2 hp hnode htarget
    exact Each.enter (Built.write (Each.setNext h .heap _) _ _) _ ⟨hlaid.shaped, hblock⟩
  | removed => exact Built.write (Each.erase h _) _ _

end Built

section Run

variable {f : Frame} {items : Array Item}

def Course.onward (c : Course Unit) (place : Nat) (s : Situation) : Course Unit :=
  { situation := { s with noted := [] }, steps := c.steps + 1, last := some place, current := some place,
    seen := () }

variable {c c' : Course Unit} {n : Nat} {r : Option Nat}

theorem runFrom_ok {place : Nat}
    (h : runFrom f {} items (n + 1) (some place) c = (.ok r, c')) :
    items[place]? = none ∧ r = none ∧ c' = c ∨
      ∃ item next s, items[place]? = some item ∧ step f place item c.situation = (.ok next, s) ∧
        Types.exceeds f.limits.steps (c.steps + 1 : Nat) = false ∧
        runFrom f {} items n next (c.onward place s) = (.ok r, c') := by
  rw [runFrom] at h
  rcases hitem : items[place]? with _ | item
  · rw [hitem] at h
    cases h
    exact .inl ⟨rfl, rfl, rfl⟩
  · rw [hitem] at h
    obtain ⟨next, c₁, hstep, hrest⟩ := bind_ok h
    rw [watched_apply] at hstep
    rcases hs : step f place item c.situation with ⟨_ | x, s⟩
    · rw [hs] at hstep
      cases hstep
    · rw [hs] at hstep
      dsimp only at hstep
      split at hstep
      · cases hstep
      · rename_i hlimit
        cases hstep
        exact .inr ⟨item, next, s, rfl, hs, by simpa using hlimit, hrest⟩

theorem runFrom_keeps {J : Course Unit → Prop}
    (hstep : ∀ place item c next s, items[place]? = some item → J c →
      step f place item c.situation = (.ok next, s) →
      Types.exceeds f.limits.steps (c.steps + 1 : Nat) = false → J (c.onward place s)) {next : Option Nat} (hc : J c)
    (h : runFrom f {} items n next c = (.ok r, c')) : J c' := by
  induction n generalizing next c with
  | zero => cases next <;> cases h <;> exact hc
  | succ n ih =>
    cases next with
    | none =>
      cases h
      exact hc
    | some place =>
      rcases runFrom_ok h with ⟨-, -, rfl⟩ | ⟨item, next, s, hitem, hs, hlimit, hrest⟩
      · exact hc
      · exact ih (hstep place item c next s hitem hc hs hlimit) hrest

theorem runProgram_ok {p : Program}
    (h : runProgram f {} p false n c = (.ok r, c')) :
    p.items ≠ [] ∧ runFrom f {} p.items.toArray n (some 0) c = (.ok r, c') := by
  rw [runProgram, if_neg (by simp)] at h
  dsimp only at h
  split at h
  · cases h
  · rename_i hne
    exact ⟨by simpa using hne, h⟩

end Run

end Chalkboard.Run
