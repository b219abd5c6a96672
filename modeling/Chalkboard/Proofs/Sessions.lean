import Chalkboard.Proofs.Diffs
import Chalkboard.Proofs.Enumerations
import Chalkboard.Proofs.SavedTypes
import Chalkboard.Proofs.StoreTyping

/-! What one program leaves for the next: sound types, and a memory whose cells are built as their types
say and hold what fits them. Reading another program keeps this, and so does every step that is done. -/

namespace Chalkboard.Types

open Effects

/-- The names in a type are its own, and names are given once. -/
structure WellNamed (s : Types) : Prop where
  distinct (t : TypeId) : (s.graph.node t).Distinct
  single : (s.registry.types.map (·.1)).Nodup

section WellNamed

variable {s s' : Types} {t : TypeId}

theorem wellNamed_basic : WellNamed {} :=
  ⟨by rintro (_ | _ | _ | _ | _) <;> trivial, consistent_basic.names⟩

theorem Node.Distinct.named {n : Node} (h : n.Distinct) (name : String) : (n.named name).Distinct := by
  cases n <;> exact h

theorem WellNamed.add {n : Node} (hs : s.WellNamed) (hn : n.Distinct) :
    WellNamed { s with graph := (s.graph.add n).2 } := by
  refine ⟨fun t => ?_, hs.single⟩
  change ((s.graph.add n).2.node t).Distinct
  by_cases ht : t = s.graph.nodes.size
  · rw [ht, Graph.node_add_self]
    exact hn
  · rw [Graph.node_add_ne ht]
    exact hs.distinct t

theorem WellNamed.later (h : s.WellNamed) (hlater : Later s s') : s'.WellNamed := by
  refine ⟨fun t => ?_, hlater.registry ▸ h.single⟩
  rcases hlater.settles.node t with hsame | ⟨-, target, hnode⟩
  · rw [hsame]
    exact h.distinct t
  · rw [hnode]
    trivial

theorem WellNamed.register (h : s.WellNamed) (ht : s.Nameless t) (limits : Limits) (name : String) :
    WellNamed (Types.register limits name t s).2 := by
  rcases register_cases limits name t s with ⟨-, e, hfails⟩ | ⟨⟨hnew, -⟩, ⟨e, -, hfails⟩ | ⟨-, hdone⟩⟩
  · rw [hfails]
    exact h
  · rw [hfails]
    exact ⟨h.distinct, h.single⟩
  rw [hdone]
  refine ⟨fun u => ?_, ?_⟩
  · dsimp only
    by_cases hut : u = t
    · rw [hut, Graph.node_set_self ht.size]
      exact ht.distinct.named name
    · rw [Graph.node_set_ne hut]
      exact h.distinct u
  · dsimp only
    rw [List.map_append]
    refine List.nodup_append.2 ⟨h.single, List.nodup_singleton _, fun a ha b hb hab => ?_⟩
    rw [hab, List.mem_singleton.1 hb] at ha
    exact hnew ha

theorem WellNamed.change {limits : Limits} {settling : Prop} (h : s.WellNamed)
    (hchange : Change limits settling s s') : s'.WellNamed := by
  cases hchange with
  | add hn => exact h.add hn.distinct
  | name name ht => exact h.register ht limits name
  | settle _ hlater => exact h.later hlater

end WellNamed

theorem Sound.lt_of_reaches {s : Types} (hs : s.Sound) {t u : TypeId} (h : s.graph.Reaches t u)
    (ht : t < s.graph.nodes.size) : u < s.graph.nodes.size := by
  induction h with
  | refl => exact ht
  | tail _ hu _ => exact (hs.link_usable hu).1

section Grows

variable {s s' : Types} {t : TypeId}

/-- Types that are the same, but for their names and for what a pointer points to. -/
inductive Node.Kin : Node → Node → Prop
  | refl (n : Node) : Kin n n
  | pointer (target target' : Target) : Kin (.pointer target) (.pointer target')
  | tuple (name name' : Option String) (fields : List (String × TypeId)) (size : Value) :
      Kin (.tuple name fields size) (.tuple name' fields size)
  | enum (name name' : Option String) (constants : List (String × Nat)) :
      Kin (.enum name constants) (.enum name' constants)
  | synonym (name name' : Option String) (of : TypeId) : Kin (.synonym name of) (.synonym name' of)

theorem Grows.kin (h : Grows s s') (ht : t < s.graph.nodes.size) {n : Node} (hnode : s.graph.node t = n) :
    ∃ n', s'.graph.node t = n' ∧ n.Kin n' := by
  refine ⟨_, rfl, ?_⟩
  rcases h.node ht with hsame | ⟨hopen, u, -, hnode'⟩
  · rw [hnode] at hsame
    cases n <;> cases hnode' : s'.graph.node t <;> simp_all [Node.unnamed] <;> constructor
  · rw [hnode']
    rw [hnode] at hopen
    cases n with
    | pointer target => exact .pointer _ _
    | _ => cases hopen

theorem Grows.fits (h : Grows s s') (hs : s.Sound) {v : Value} (hv : Fits s.graph t v)
    (ht : t < s.graph.nodes.size) : Fits s'.graph t v := by
  have hbelow {t u : TypeId} (hu : u ∈ (s.graph.node t).links) : u < s.graph.nodes.size :=
    (hs.link_usable hu).1
  induction hv with
  | whole i hnode => obtain ⟨n, hnode', ⟨⟩⟩ := h.kin ht hnode; exact .whole i hnode'
  | boundless hnode hx => obtain ⟨n, hnode', ⟨⟩⟩ := h.kin ht hnode; exact .boundless hnode' hx
  | real x hnode => obtain ⟨n, hnode', ⟨⟩⟩ := h.kin ht hnode; exact .real x hnode'
  | bool b hnode => obtain ⟨n, hnode', ⟨⟩⟩ := h.kin ht hnode; exact .bool b hnode'
  | char hnode hlength => obtain ⟨n, hnode', ⟨⟩⟩ := h.kin ht hnode; exact .char hnode' hlength
  | null hnode => obtain ⟨n, hnode', ⟨⟩⟩ := h.kin ht hnode <;> exact .null hnode'
  | address a hnode => obtain ⟨n, hnode', ⟨⟩⟩ := h.kin ht hnode <;> exact .address a hnode'
  | word hnode hmem => obtain ⟨n, hnode', ⟨⟩⟩ := h.kin ht hnode <;> exact .word hnode' hmem
  | constant hnode howner hmem =>
    obtain ⟨n, hnode', ⟨⟩⟩ := h.kin ht hnode <;> exact .constant hnode' howner hmem
  | element hnode _ ih =>
    have hpart := ih (hbelow (by rw [hnode]; exact List.mem_cons_self))
    obtain ⟨n, hnode', ⟨⟩⟩ := h.kin ht hnode
    exact .element hnode' hpart
  | synonym hnode _ ih =>
    have hpart := ih (hbelow (by rw [hnode]; exact List.mem_cons_self))
    obtain ⟨n, hnode', ⟨⟩⟩ := h.kin ht hnode <;> exact .synonym hnode' hpart

end Grows

end Chalkboard.Types

namespace Chalkboard.Reading

open Effects Chalkboard.Types

theorem readProgram_wellNamed {s₀ s : Types} (hs : s₀.Sound) (h₀ : s₀.WellNamed) {setting : Setting}
    {text : String} {p : Syntax.Program} (h : (readProgram setting text).run s₀ = (.ok p, s)) : s.WellNamed :=
  readProgram_keeps hs h₀ (fun _ _ _ hs => hs.change) h

end Chalkboard.Reading

namespace Chalkboard.Memory

open Chalkboard.Types (TypeId Grows)

variable {c : Cell} {g g' : Types.Graph} {s s' : Types} {t : TypeId}

theorem Shaped.grow (h : Grows s s') (hs : s.Sound)
    (hc : Shaped s.graph t c) (ht : t < s.graph.nodes.size) : Shaped s'.graph t c := by
  induction hc with
  | @leaf a t v harray htuple =>
    obtain ⟨n, hnode', hkin⟩ := h.kin ht rfl
    generalize s.graph.node t = old at hkin harray htuple
    refine .leaf a v (fun element axes hnode => ?_) fun name fields size hnode => ?_
    · cases hnode'.symm.trans hnode
      cases hkin
      exact harray element axes rfl
    · cases hnode'.symm.trans hnode
      cases hkin
      · exact htuple name fields size rfl
      · exact htuple _ fields size rfl
  | @array t element axes parts hnode hcount _ ih =>
    obtain ⟨n, hnode', ⟨⟩⟩ := h.kin ht hnode
    refine .array hnode' hcount fun c hc => ih c hc (hs.link_usable (t := t) ?_).1
    rw [hnode]
    exact List.mem_cons_self
  | @tuple t name fields size parts hnode hnames _ ih =>
    have hparts (pair : (String × Cell) × String × TypeId) (hpair : pair ∈ parts.zip fields) :
        Shaped s'.graph pair.2.2 pair.1.2 := by
      refine ih pair hpair (hs.link_usable (t := t) ?_).1
      rw [hnode]
      exact List.mem_map_of_mem (List.of_mem_zip hpair).2
    obtain ⟨n, hnode', ⟨⟩⟩ := h.kin ht hnode <;> exact .tuple hnode' hnames hparts

theorem partValues_same {parts : List Cell}
    (h : ∀ c ∈ parts, c.value g' = c.value g) : Cell.partValues g' parts = Cell.partValues g parts := by
  induction parts with
  | nil => rfl
  | cons c rest ih =>
    rw [Cell.partValues, Cell.partValues, h c List.mem_cons_self,
      ih fun c hc => h c (List.mem_cons_of_mem _ hc)]

theorem fieldValues_same {parts : List (String × Cell)}
    (h : ∀ part ∈ parts, part.2.value g' = part.2.value g) :
    Cell.fieldValues g' parts = Cell.fieldValues g parts := by
  induction parts with
  | nil => rfl
  | cons part rest ih =>
    rw [Cell.fieldValues, Cell.fieldValues, h part List.mem_cons_self,
      ih fun part hpart => h part (List.mem_cons_of_mem _ hpart)]

theorem Shaped.value_grow (h : Grows s s') (hs : s.Sound)
    (hc : Shaped s.graph t c) (ht : t < s.graph.nodes.size) : c.value s'.graph = c.value s.graph := by
  induction hc with
  | leaf => rfl
  | @array t element axes parts hnode hcount _ ih =>
    have hparts := partValues_same fun c hc => ih c hc (hs.link_usable (t := t)
      (by rw [hnode]; exact List.mem_cons_self)).1
    obtain ⟨n, hnode', ⟨⟩⟩ := h.kin ht hnode
    rw [Cell.value, Cell.value, hparts, Cell.lengths, Cell.lengths, hnode, hnode']
  | @tuple t name fields size parts hnode hnames _ ih =>
    have hlength : parts.length = fields.length := by simpa using congrArg List.length hnames
    have hparts := fieldValues_same fun part hpart => by
      obtain ⟨field, hpair⟩ := exists_mem_zip hlength hpart
      exact ih _ hpair (hs.link_usable (t := t)
        (by rw [hnode]; exact List.mem_map_of_mem (List.of_mem_zip hpair).2)).1
    rw [Cell.value, Cell.value, hparts]

theorem owns_of_mem_entries {m : Memory} {k : Root} (h : (k, c) ∈ m.entries) : m.Owns c := by
  rcases List.mem_append.1 h with h | h
  · obtain ⟨e, he, heq⟩ := List.mem_map.1 h
    cases heq
    exact .inl ⟨_, he⟩
  · obtain ⟨e, he, heq⟩ := List.mem_map.1 h
    cases heq
    exact .inr ⟨_, he⟩

end Chalkboard.Memory

namespace Chalkboard.Run

open Effects
open Syntax (Item)
open Chalkboard.Types (TypeId Grows)
open Memory (Cell Address Location Shaped)

theorem heritable_below {s : Types} (hs : s.Sound) : s.graph.Heritable (· < s.graph.nodes.size) :=
  Types.Graph.heritable_of_links fun _ _ _ hu => (hs.link_usable hu).1

/-- A memory in keeping with the types: names and addresses are there once, every cell is built as its type
says, and the leaves hold what fits them. -/
structure Lawful (s : Types) (m : Memory) : Prop where
  distinct : m.Distinct
  built : Built s.graph (· < s.graph.nodes.size) m
  typed : WellTyped s.graph m

theorem lawful_start (s : Types) : Lawful s {} := ⟨⟨.nil, .nil⟩, built_start, wellTyped_start⟩

theorem Lawful.grow {s s' : Types} {m : Memory} (h : Lawful s m) (hgrows : Grows s s') (hs : s.Sound) :
    Lawful s' m := by
  refine ⟨h.distinct, fun c hc => ?_, fun a t v hleaf => ?_⟩
  · obtain ⟨hshaped, ht⟩ := h.built c hc
    exact ⟨hshaped.grow hgrows hs ht, Nat.lt_of_lt_of_le ht hgrows.size⟩
  · obtain ⟨c, path, howns, hat⟩ := hleaf
    have ht := (h.built.at (heritable_below hs) howns hat).2
    exact (h.typed a t v ⟨c, path, howns, hat⟩).imp id fun hfits => hgrows.fits hs hfits ht

theorem Lawful.valued_grow {s s' : Types} {m : Memory} (h : Lawful s m) (hgrows : Grows s s')
    (hs : s.Sound) (hvalued : m.Valued s.graph) : m.Valued s'.graph := by
  intro e he
  obtain ⟨hshaped, ht⟩ := h.built e.2 (Memory.owns_of_mem_entries he)
  rw [hshaped.value_grow hgrows hs ht]
  exact hvalued e he

theorem Turn.distinct {f : Frame} {m m' : Memory} {events : History} (h : Turn f m events m')
    (hm : m.Distinct) : m'.Distinct := by
  cases h with
  | still => exact hm
  | moved => exact distinct_setNext.2 hm
  | @declared name c n hnew =>
    have hmoved : (m.setNext .stack n).Distinct := distinct_setNext.2 hm
    exact hmoved.push hnew c
  | wrote => exact hm.write
  | stored _ _ _ _ _ hm' =>
    subst hm'
    exact (distinct_setNext.2 hm).write.enter _ _
  | removed => exact (hm.erase _).write

theorem Lawful.step {f : Frame} {s s' : Situation} {place : Nat} {item : Item} {next : Option Nat}
    (hs : f.types.Sound)
    (hdeclared : ∀ d, item.action = .declare d → d.type < f.types.graph.nodes.size)
    (h : Lawful f.types s.memory) (hstep : Run.step f place item s = (.ok next, s')) :
    Lawful f.types s'.memory := by
  have hbuilt := h.built.done (heritable_below hs) (fun d hd => hdeclared d hd)
    (step_done hs.graph hstep).1
  rcases step_turn hs.graph place item s with hturn | ⟨⟨e, he⟩, -⟩
  · rw [hstep] at hturn
    exact ⟨hturn.distinct h.distinct, hbuilt, h.typed.turn h.distinct hturn⟩
  · rw [hstep] at he
    cases he

end Chalkboard.Run

namespace Chalkboard.Session

open Reading (readProgram)
open Run (Lawful)

/-- Types, and a memory if one is loaded, that a program can be read and run on. -/
structure Fit (s : Types) (memory : Option Memory) : Prop where
  sound : s.Sound
  named : s.WellNamed
  basic : Types.Registry.basic.types ⊆ s.registry.types
  lawful {m : Memory} (hm : memory = some m) : Lawful s m

/-- On these a run can be recorded too. -/
structure Ready (s : Types) (memory : Option Memory) : Prop extends Fit s memory where
  valued {m : Memory} (hm : memory = some m) : m.Valued s.graph

section Ready

variable {s : Types} {memory : Option Memory}

theorem fit_start : Fit {} none :=
  ⟨Types.sound_basic, Types.wellNamed_basic, List.Subset.refl _, fun hm => by cases hm⟩

theorem Fit.restored (h : Fit s memory) : Fit (restored s) memory := by
  have hsingle : s.registry.types.Pairwise fun e f => e.1 ≠ f.1 := List.pairwise_map.1 h.named.single
  have hsound := restored_sound hsingle h.sound h.basic
  refine ⟨hsound, ⟨h.named.distinct, ?_⟩, hsound.standby, fun hm => ?_⟩
  · exact Types.nodup_foldl_upsert _ _ Types.wellNamed_basic.single
  · exact ⟨(h.lawful hm).distinct, (h.lawful hm).built, (h.lawful hm).typed⟩

theorem Fit.read {s' : Types} (h : Fit s memory) {setting : Reading.Setting} {text : String}
    {p : Syntax.Program} (hread : (readProgram setting text).run s = (.ok p, s')) : Fit s' memory := by
  have hgrows := Reading.readProgram_grows h.sound hread
  exact {
    sound := (Reading.readProgram_shut_from h.sound hread).1
    named := Reading.readProgram_wellNamed h.sound h.named hread
    basic := fun e he => hgrows.names (h.basic he)
    lawful := fun hm => (h.lawful hm).grow hgrows h.sound }

theorem Ready.read {s' : Types} (h : Ready s memory) {setting : Reading.Setting} {text : String}
    {p : Syntax.Program} (hread : (readProgram setting text).run s = (.ok p, s')) : Ready s' memory :=
  ⟨h.toFit.read hread, fun hm =>
    (h.lawful hm).valued_grow (Reading.readProgram_grows h.sound hread) h.sound (h.valued hm)⟩

theorem Fit.start (h : Fit s memory) : Lawful s (memory.getD {}) := by
  cases memory with
  | none => exact Run.lawful_start s
  | some m => exact h.lawful rfl

end Ready

end Chalkboard.Session
