import Chalkboard.Proofs.WrittenTypes

/-! The types of every program that is read are sound, and the types of its variables are shut. A type is
made after its parts, so it comes after them in the graph; only a pointer may be made before its target.
Types are changed in three ways only: a type is added, a type that was just made gets its name, an open target
is settled. What holds through these three holds after every reading, also where it ends in a fault. -/

namespace Chalkboard.Types

open Effects Relation

/-- Constants and fields go by names of their own. -/
def Node.Distinct : Node → Prop
  | .enum _ constants => (constants.map (·.1)).Nodup
  | .tuple _ fields _ => (fields.map (·.1)).Nodup
  | _ => True

/-- The sizes of fields, added up in their order. -/
def Graph.totalSize (g : Graph) (total : Value) : List (String × TypeId) → Except Fault Value
  | [] => .ok total
  | (_, t) :: fields => do
    let size ← g.size t
    totalSize g (← liftMisuse (total.add size)) fields

/-- A tuple has the size of its fields together. -/
def Node.Totalled (g : Graph) : Node → Prop
  | .tuple _ fields size => g.totalSize (.int 0) fields = .ok size
  | _ => True

def Loose (s : Types) (t : TypeId) : Prop := ∀ w, t ∉ (s.graph.node w).links

/-- A type that may be added. It leads to types that have names, and to others that are part of nothing yet. -/
structure Addable (s : Types) (n : Node) : Prop where
  usable : ∀ u ∈ n.links, s.Usable u
  spare : ∀ u ∈ n.links, s.Registered u ∨ Loose s u
  apart : n.links.Pairwise fun u w => u = w → s.Registered u
  plain : n.Plain
  distinct : n.Distinct
  totalled : n.Totalled s.graph

/-- A type that may get a name. -/
structure Nameless (s : Types) (t : TypeId) : Prop where
  size : t < s.graph.nodes.size
  unregistered : ¬s.Registered t
  distinct : (s.graph.node t).Distinct

/-- What is done to types while a program is read, piece by piece. -/
inductive Change (limits : Limits) (settling : Prop) (s : Types) : Types → Prop
  | add {n : Node} (hn : s.Addable n) : Change limits settling s { s with graph := (s.graph.add n).2 }
  | name (name : String) {t : TypeId} (ht : s.Nameless t) :
      Change limits settling s (register limits name t s).2
  | settle {s' : Types} (hsettling : settling) (hlater : Later s s') : Change limits settling s s'

section Register

def Node.constants : Node → List (String × Nat)
  | .enum _ constants => constants
  | _ => []

theorem Registry.overlap_nil {β γ : Type} {known : List (String × β)} {new : List (String × γ)} :
    overlap known new = [] ↔ ∀ c ∈ new.map (·.1), c ∉ known.map (·.1) := by
  have hnil : overlap known new = [] ↔ (new.map (·.1)).filter (fun n => known.any (·.1 == n)) = [] :=
    ⟨fun h => List.Perm.eq_nil (h ▸ (List.mergeSort_perm _ _).symm), fun h => by rw [overlap, h, List.mergeSort_nil]⟩
  rw [hnil, List.filter_eq_nil_iff]
  simp

/-- The table with the constants of a type that has no name yet. -/
def entered (s : Types) (t : TypeId) : List (String × Constant) :=
  s.registry.constants ++ (s.graph.node t).constants.map fun (c, n) => (c, ⟨t, none, c, n⟩)

/-- A name and a type that a registry has nothing against, but for limits. -/
structure Welcomes (s : Types) (name : String) (t : TypeId) : Prop where
  name : name ∉ s.registry.types.map (·.1)
  defined : (s.graph.node t).isUserDefined = true
  constants : ∀ c ∈ (s.graph.node t).constants.map (·.1), c ∉ s.registry.constants.map (·.1)

theorem enterConstantsOf_cases (t : TypeId) (s : Types) :
    (¬(∀ c ∈ (s.graph.node t).constants.map (·.1), c ∉ s.registry.constants.map (·.1)) ∧
        ∃ e, enterConstantsOf t (s.graph.node t) s = (.error e, s)) ∨
      (∀ c ∈ (s.graph.node t).constants.map (·.1), c ∉ s.registry.constants.map (·.1)) ∧
        enterConstantsOf t (s.graph.node t) s =
          (.ok (), { s with registry := { s.registry with constants := s.entered t } }) := by
  rw [entered]
  cases s.graph.node t with
  | enum own constants =>
    dsimp only [Node.constants, enterConstantsOf]
    rw [← Registry.overlap_nil, enterConstants, bind_apply, get_apply]
    dsimp only
    rcases Registry.overlap s.registry.constants constants with _ | ⟨name, names⟩
    · exact .inr ⟨rfl, rfl⟩
    · exact .inl ⟨List.cons_ne_nil _ _, _, rfl⟩
  | _ =>
    refine .inr ⟨fun c hc => absurd hc List.not_mem_nil, ?_⟩
    simp [enterConstantsOf, Node.constants, pure_apply]

/-- A name is refused, or the check of the type fails when its constants are in the table already, or the
type gets its name. -/
theorem register_cases (limits : Limits) (name : String) (t : TypeId) (s : Types) :
    (¬s.Welcomes name t ∧ ∃ e, register limits name t s = (.error e, s)) ∨
      s.Welcomes name t ∧
      ((∃ e, s.graph.checkLimits limits t = .error e ∧ register limits name t s =
          (.error e, { s with registry := { s.registry with constants := s.entered t } })) ∨
        s.graph.checkLimits limits t = .ok () ∧ register limits name t s = (.ok (), { s with
          graph := s.graph.set t ((s.graph.node t).named name)
          registry := ⟨s.registry.types ++ [(name, .settled t)], nameConstants t name (s.entered t)⟩ })) := by
  rw [register, bind_apply, get_apply]
  dsimp only
  split
  · rename_i hdefined
    refine .inl ⟨fun h => by simp [h.defined] at hdefined, ?_⟩
    rw [bind_apply, lift_apply]
    cases s.graph.text t <;> exact ⟨_, rfl⟩
  rename_i hdefined
  split
  · rename_i hname
    exact .inl ⟨fun h => h.name (by simpa using hname), _, rfl⟩
  rename_i hname
  rw [bind_apply]
  rcases enterConstantsOf_cases t s with ⟨hknown, e, hfails⟩ | ⟨hnew, henter⟩
  · rw [hfails]
    exact .inl ⟨fun h => hknown h.constants, e, rfl⟩
  rw [henter]
  dsimp only
  rw [bind_apply, lift_apply]
  refine .inr ⟨⟨by simpa using hname, by simpa using hdefined, hnew⟩, ?_⟩
  rcases s.graph.checkLimits limits t with e | _
  · exact .inl ⟨e, rfl, rfl⟩
  · exact .inr ⟨rfl, rfl⟩

theorem Graph.closure_of_checkLimits {g : Graph} {limits : Limits} {t : TypeId}
    (h : g.checkLimits limits t = .ok ()) : ∃ u, g.closure t = .ok u := by
  rw [checkLimits] at h
  rcases hfuel : g.checkFuel limits with _ | fuel
  · rw [hfuel] at h
    cases h
  · rw [hfuel, checkFrom, if_neg (by simp)] at h
    split at h
    · cases h
    · obtain ⟨u, hu, -⟩ := except_bind_ok h
      exact ⟨u, hu⟩

theorem checkLimits_enum {constants : List (String × Nat)} {g : Graph} {own : Option String} {t : TypeId}
    (h : g.node t = .enum own constants) (limits : Limits) :
    g.checkLimits limits t =
      if exceeds limits.typeDepth 1 then .error (.limit .typeDepth) else .ok () := by
  have hclosure : g.closure t = .ok t := by simp [Graph.closure, h]
  obtain ⟨fuel, hfuel⟩ : ∃ fuel, g.checkFuel limits = fuel + 1 := by
    refine Nat.exists_eq_add_one_of_ne_zero ?_
    unfold Graph.checkFuel
    split <;> simp [longestWalk, callDepth]
  rw [Graph.checkLimits, hfuel, Graph.checkFrom, if_neg (by simp), hclosure, except_ok_bind]
  dsimp only
  rw [h]
  rfl

end Register

section Change

variable {limits : Limits} {n : Node} {name : String} {s s' : Types} {settling : Prop} {t : TypeId}

theorem grows_add (s : Types) (n : Node) : Grows s { s with graph := (s.graph.add n).2 } := by
  refine ⟨?_, List.Subset.refl _, fun {t} ht => .inl ?_⟩
  · dsimp only
    rw [Graph.size_add]
    exact Nat.le_succ _
  · dsimp only
    rw [Graph.node_add_ne (Nat.ne_of_lt ht)]

theorem Sound.add (hs : s.Sound) (hn : s.Addable n) : Sound { s with graph := (s.graph.add n).2 } := by
  have hgrows := grows_add s n
  have hnode : (s.graph.add n).2.node s.graph.nodes.size = n := Graph.node_add_self
  refine hgrows.sound hs (fun t ht => ?_) (fun _ hmem => .inl hmem) rfl
  by_cases heq : t = s.graph.nodes.size
  · subst heq
    refine ⟨fun u hu => ?_, ?_, fun u hu => ?_⟩
    · rw [hnode] at hu
      exact (hn.usable u (Node.parts_subset_links hu)).1
    · rw [hnode]
      exact hn.plain
    · rw [hnode] at hu
      refine (hn.usable u hu).2.imp hgrows.registered fun hmade => ⟨(hn.usable u hu).1, ?_⟩
      rw [(hgrows.keeps (hn.usable u hu).1).2.1]
      exact hmade
  · refine fitting_of_size_le ?_
    dsimp only
    rw [Graph.size_add]
    omega

theorem grows_register (s : Types) (t : TypeId) (name : String) (constants : List (String × Constant)) :
    Grows s { s with
      graph := s.graph.set t ((s.graph.node t).named name)
      registry := ⟨s.registry.types ++ [(name, .settled t)], constants⟩ } := by
  refine ⟨Nat.le_of_eq Graph.size_set.symm, List.subset_append_left _ _, fun {u} hu => .inl ?_⟩
  dsimp only
  by_cases heq : u = t
  · subst heq
    rw [Graph.node_set_self hu, Node.unnamed_named]
  · rw [Graph.node_set_ne heq]

theorem Sound.register (hs : s.Sound) (ht : s.Nameless t) :
    (Types.register limits name t s).2.Sound ∧ Grows s (Types.register limits name t s).2 := by
  rcases register_cases limits name t s with ⟨-, e, hfails⟩ | ⟨-, ⟨e, -, hfails⟩ | ⟨hcheck, hdone⟩⟩
  · rw [hfails]
    exact ⟨hs, .refl s⟩
  · rw [hfails]
    exact ⟨⟨hs.graph, hs.names, hs.standby, hs.tied⟩, Nat.le_refl _, List.Subset.refl _, fun _ => .inl rfl⟩
  rw [hdone]
  have hgrows := grows_register s t name (nameConstants t name (s.entered t))
  refine ⟨hgrows.sound hs (fun u hu => fitting_of_size_le ?_) (fun entry hmem => ?_) rfl, hgrows⟩
  · dsimp only
    rwa [Graph.size_set]
  · refine (List.mem_append.1 hmem).imp id fun hmem => ?_
    rw [List.mem_singleton.1 hmem]
    obtain ⟨u, hu⟩ := Graph.closure_of_checkLimits hcheck
    exact ⟨t, rfl, Nat.lt_of_lt_of_le ht.size hgrows.size, u,
      (hgrows.closure hs.graph.ordered ht.size).trans hu⟩

theorem Change.grows (h : Change limits settling s s') (hs : s.Sound) : s'.Sound ∧ Grows s s' := by
  cases h with
  | @add n hn => exact ⟨hs.add hn, grows_add s n⟩
  | name name ht => exact hs.register ht
  | settle _ hlater => exact ⟨hlater.sound hs, hlater.grows hs⟩

/-- What types go through while a program is read. -/
abbrev Course (limits : Limits) (settling : Prop) := ReflTransGen (Change limits settling)

theorem Course.keeps {I : Types → Prop} (h : Course limits settling s s') (hs : s.Sound) (hi : I s)
    (hI : ∀ s s', s.Sound → I s → Change limits settling s s' → I s') : s'.Sound ∧ Grows s s' ∧ I s' := by
  induction h with
  | refl => exact ⟨hs, .refl s, hi⟩
  | tail _ hchange ih =>
    obtain ⟨hs₁, hgrows₁, hi₁⟩ := ih
    obtain ⟨hs₂, hgrows₂⟩ := hchange.grows hs₁
    exact ⟨hs₂, hgrows₁.trans hgrows₂, hI _ _ hs₁ hi₁ hchange⟩

theorem Course.grows (h : Course limits settling s s') (hs : s.Sound) : s'.Sound ∧ Grows s s' := by
  obtain ⟨hs', hgrows, -⟩ := h.keeps (I := fun _ => True) hs trivial fun _ _ _ _ _ => trivial
  exact ⟨hs', hgrows⟩

end Change

section Leaves

variable {α β : Type} {P : Types → β → Prop} {Q : Types → α → Prop} {r : Except Fault β × Types} {s : Types}
  {step : Types → Types → Prop}

/-- Work has come to an end: step by step it has led from types to those it leaves, and it has a result in
keeping with them if it did not fail. -/
structure Leaves (step : Types → Types → Prop) (s : Types) (P : Types → β → Prop)
    (r : Except Fault β × Types) : Prop where
  course : ReflTransGen step s r.2
  result : ∀ b, r.1 = .ok b → P r.2 b

theorem Leaves.ok {b : β} (hb : P s b) : Leaves step s P (.ok b, s) := by
  refine ⟨.refl, fun a ha => ?_⟩
  cases ha
  exact hb

theorem Leaves.error {e : Fault} : Leaves step s P (.error e, s) := by
  refine ⟨.refl, fun a ha => ?_⟩
  cases ha

theorem Leaves.after {s₁ : Types} (hs₁ : ReflTransGen step s s₁) (h : Leaves step s₁ P r) :
    Leaves step s P r := ⟨hs₁.trans h.course, h.result⟩

theorem Leaves.bind {m : TypesM α} {k : α → TypesM β} (hm : Leaves step s Q (m s))
    (hk : ∀ a s', ReflTransGen step s s' → Q s' a → Leaves step s' P (k a s')) :
    Leaves step s P ((m >>= k) s) := by
  rw [bind_apply]
  rcases hfirst : m s with ⟨e | a, s'⟩
  · rw [hfirst] at hm
    exact .after hm.course .error
  · rw [hfirst] at hm
    exact .after hm.course (hk a s' hm.course (hm.result a rfl))

end Leaves

section Make

variable {fields : List (String × Target)} {limits : Limits} {n : Node} {s s' s'' s₀ : Types} {settling : Prop}
  {t : TypeId} {target : Target}

theorem add_leaves (hs : s.Sound) (hn : s.Addable n) :
    Leaves (Change limits settling) s Nameless (add n s) := by
  refine ⟨.single (.add hn), fun t ht => ?_⟩
  cases ht
  refine ⟨?_, fun hnamed => Nat.lt_irrefl _ (hs.usable hnamed).1, ?_⟩
  · exact Nat.lt_of_lt_of_eq (Nat.lt_succ_self _) Graph.size_add.symm
  · change ((s.graph.add n).2.node s.graph.nodes.size).Distinct
    rw [Graph.node_add_self]
    exact hn.distinct

/-- Types were added that are made of each other and of types with names. -/
structure Adds (s s' : Types) : Prop where
  rest : s' = { s with graph := s'.graph }
  size : s.graph.nodes.size ≤ s'.graph.nodes.size
  old {t : TypeId} (ht : t < s.graph.nodes.size) : s'.graph.node t = s.graph.node t
  new {t : TypeId} (ht : s.graph.nodes.size ≤ t) :
    ∀ u ∈ (s'.graph.node t).links, s.Registered u ∨ s.graph.nodes.size ≤ u

theorem Adds.refl (s : Types) : Adds s s := by
  refine ⟨rfl, Nat.le_refl _, fun _ => rfl, fun {t} ht u hu => ?_⟩
  rw [Graph.node_of_size_le ht] at hu
  cases hu

theorem Adds.registered (h : Adds s s') : s'.Registered t ↔ s.Registered t := by
  rw [h.rest]
  rfl

theorem Adds.extends (h : Adds s s') : Extends s s' := ⟨h.size, h.rest, fun ht => .inl (h.old ht)⟩

theorem Adds.trans (h : Adds s s') (h' : Adds s' s'') : Adds s s'' := by
  refine ⟨by rw [h'.rest, h.rest], Nat.le_trans h.size h'.size, fun {t} ht => ?_, fun {t} ht u hu => ?_⟩
  · rw [h'.old (Nat.lt_of_lt_of_le ht h.size), h.old ht]
  · by_cases hlt : t < s'.graph.nodes.size
    · rw [h'.old hlt] at hu
      exact h.new ht u hu
    · refine (h'.new (Nat.le_of_not_lt hlt) u hu).imp h.registered.1 fun hle => ?_
      exact Nat.le_trans h.size hle

theorem Adds.add (h : Adds s₀ s) (hlinks : ∀ u ∈ n.links, s₀.Registered u ∨ s₀.graph.nodes.size ≤ u) :
    Adds s₀ { s with graph := (s.graph.add n).2 } := by
  refine ⟨by rw [h.rest], ?_, fun {t} ht => ?_, fun {t} ht u hu => ?_⟩
  · dsimp only
    rw [Graph.size_add]
    exact Nat.le_succ_of_le h.size
  · dsimp only
    rw [Graph.node_add_ne (Nat.ne_of_lt (Nat.lt_of_lt_of_le ht h.size)), h.old ht]
  · dsimp only at hu
    by_cases heq : t = s.graph.nodes.size
    · rw [heq, Graph.node_add_self] at hu
      exact hlinks u hu
    · rw [Graph.node_add_ne heq] at hu
      exact h.new ht u hu

/-- A target that is open, that has a name, or that was just made and is part of nothing. -/
def Target.Fresh (s s' : Types) : Target → Prop
  | .deferred .. => True
  | .settled t => s'.Registered t ∨
      s.graph.nodes.size ≤ t ∧ t < s'.graph.nodes.size ∧ Loose s' t ∧ (s'.graph.node t).isMade = true

def Target.Shareable (s : Types) : Target → Prop
  | .deferred .. => True
  | .settled t => s.Registered t

theorem target_fresh (s : Types) (name : String) : (s.target name).Fresh s s := by
  unfold Types.target
  rcases h : s.registry.types.lookup name with _ | ⟨t | _⟩
  · trivial
  · exact .inl ⟨name, mem_of_lookup h⟩
  · trivial

theorem Target.Fresh.adds (hfresh : target.Fresh s s') (h : Adds s' s'') : target.Fresh s s'' := by
  cases target with
  | deferred => trivial
  | settled t =>
    rcases hfresh with hnamed | ⟨hle, hlt, hloose, hmade⟩
    · exact .inl (h.registered.2 hnamed)
    · by_cases hnamed : s'.Registered t
      · exact .inl (h.registered.2 hnamed)
      refine .inr ⟨hle, Nat.lt_of_lt_of_le hlt h.size, fun w hw => ?_, by rwa [h.old hlt]⟩
      by_cases hold : w < s'.graph.nodes.size
      · rw [h.old hold] at hw
        exact hloose w hw
      · rcases h.new (Nat.le_of_not_lt hold) t hw with hname | hge
        · exact hnamed hname
        · exact absurd hlt (Nat.not_lt_of_le hge)

theorem Target.Fresh.usable (h : (Target.settled t).Fresh s₀ s) (hs : s.Sound) : s.Usable t :=
  h.elim hs.usable fun ⟨_, hlt, _, hmade⟩ => ⟨hlt, .inr hmade⟩

theorem Target.Fresh.spare (h : (Target.settled t).Fresh s₀ s) : s.Registered t ∨ Loose s t :=
  h.imp id fun ⟨_, _, hloose, _⟩ => hloose

/-- A type that leads to one type at most, which has a name or was just made. -/
theorem addable_one (hs : s.Sound) (htarget : target.Fresh s₀ s) (hlinks : ∀ u ∈ n.links, target = .settled u)
    (hone : n.links.length ≤ 1) (hplain : n.Plain) (hdistinct : n.Distinct) (htotalled : n.Totalled s.graph) :
    s.Addable n := by
  have hfresh (u : TypeId) (hu : u ∈ n.links) : (Target.settled u).Fresh s₀ s := hlinks u hu ▸ htarget
  refine ⟨fun u hu => (hfresh u hu).usable hs, fun u hu => (hfresh u hu).spare, ?_, hplain, hdistinct,
    htotalled⟩
  rcases hn : n.links with _ | ⟨u, _ | ⟨w, rest⟩⟩
  · exact .nil
  · exact List.pairwise_singleton _ _
  · rw [hn] at hone
    simp at hone

theorem fresh_add (hs : s.Sound) (hadds : Adds s₀ s) (htarget : target.Fresh s₀ s)
    (hlinks : ∀ u ∈ n.links, target = .settled u) (hmade : n.isMade = true) :
    Adds s₀ { s with graph := (s.graph.add n).2 } ∧
      (Target.settled s.graph.nodes.size).Fresh s₀ { s with graph := (s.graph.add n).2 } := by
  have hfresh (u : TypeId) (hu : u ∈ n.links) : (Target.settled u).Fresh s₀ s := hlinks u hu ▸ htarget
  refine ⟨hadds.add fun u hu => (hfresh u hu).imp hadds.registered.1 And.left,
    .inr ⟨hadds.size, ?_, fun w hw => ?_, ?_⟩⟩
  · exact Nat.lt_of_lt_of_eq (Nat.lt_succ_self _) Graph.size_add.symm
  · dsimp only at hw
    by_cases heq : w = s.graph.nodes.size
    · rw [heq, Graph.node_add_self] at hw
      exact Nat.lt_irrefl _ ((hfresh _ hw).usable hs).1
    · rw [Graph.node_add_ne heq] at hw
      exact Nat.lt_irrefl _ (hs.link_usable hw).1
  · dsimp only
    rw [Graph.node_add_self]
    exact hmade

/-- Fields may share a type with a name, and nothing else. -/
structure Unshared (s s' : Types) (fields : List (String × Target)) : Prop where
  fresh : ∀ field ∈ fields, field.2.Fresh s s'
  apart : fields.Pairwise fun e f => e.2 = f.2 → e.2.Shareable s'

theorem unshared_nil (s s' : Types) : Unshared s s' [] :=
  ⟨fun _ hfield => absurd hfield List.not_mem_nil, .nil⟩

theorem Unshared.cons {s₁ : Types} {name : String} (htarget : target.Fresh s s₁) (hs₁ : s₁.Sound)
    (hadds : Adds s s₁) (hadds' : Adds s₁ s') (h : Unshared s₁ s' fields) :
    Unshared s s' ((name, target) :: fields) := by
  refine ⟨fun field hfield => ?_, List.pairwise_cons.2 ⟨fun field hfield heq => ?_, h.apart⟩⟩
  · rcases List.mem_cons.1 hfield with rfl | hfield
    · exact htarget.adds hadds'
    · have hfresh := h.fresh field hfield
      obtain ⟨name', t | _⟩ := field
      · exact hfresh.imp id fun ⟨hle, hrest⟩ => ⟨Nat.le_trans hadds.size hle, hrest⟩
      · trivial
  · have hfresh := h.fresh field hfield
    obtain ⟨name', target'⟩ := field
    dsimp only at heq hfresh ⊢
    subst heq
    cases target with
    | deferred => trivial
    | settled t =>
      -- the first field came before the others were made
      refine hfresh.elim id fun ⟨hle, _⟩ => ?_
      exact absurd (htarget.usable hs₁).1 (Nat.not_lt_of_le hle)

theorem addSynonym_leaves (hs : s.Sound) (h : target.Fresh s₀ s) :
    Leaves (Change limits settling) s Nameless (addSynonym target s) := by
  have hadd (t : TypeId) (ht : (Target.settled t).Fresh s₀ s) :
      Leaves (Change limits settling) s Nameless (add (.synonym none t) s) :=
    add_leaves hs (addable_one hs ht (fun u hu => by rw [List.mem_singleton.1 hu]) (Nat.le_refl 1) trivial
      trivial trivial)
  cases target with
  | settled t => exact hadd t h
  | deferred side name =>
    rw [addSynonym, bind_apply, lookUpIn_apply]
    rcases hlookup : (s.home side).types.lookup name with _ | ⟨t | _⟩
    · exact .error
    · exact hadd t (.inl (hs.home hlookup))
    · exact .error

end Make

section Fields

variable {β : Type} {R : β → β → Prop}

theorem upsert_keys (name : String) (b : β) (entries : List (String × β)) :
    (upsert name b entries).map (·.1) =
      if name ∈ entries.map (·.1) then entries.map (·.1) else entries.map (·.1) ++ [name] := by
  induction entries with
  | nil => simp [upsert]
  | cons entry rest ih =>
    obtain ⟨n, old⟩ := entry
    rw [upsert]
    by_cases h : n = name
    · simp [h]
    · have h' : ¬name = n := fun heq => h heq.symm
      simp only [beq_iff_eq, h, if_false, List.map_cons, ih, List.mem_cons, h', false_or]
      split <;> simp

theorem nodup_foldl_upsert (entries known : List (String × β)) (h : (known.map (·.1)).Nodup) :
    ((entries.foldl (fun known (name, b) => upsert name b known) known).map (·.1)).Nodup := by
  induction entries generalizing known with
  | nil => exact h
  | cons entry rest ih =>
    refine ih _ ?_
    rw [upsert_keys]
    split
    · exact h
    · rename_i hnew
      refine List.nodup_append.2 ⟨h, List.nodup_singleton _, fun a ha b hb => ?_⟩
      rw [List.mem_singleton.1 hb]
      rintro rfl
      exact hnew ha

theorem mem_upsert {name : String} {b : β} {entries : List (String × β)} {e : String × β}
    (h : e ∈ upsert name b entries) : e.2 = b ∨ e ∈ entries := by
  induction entries with
  | nil =>
    rw [upsert, List.mem_singleton] at h
    exact .inl (by rw [h])
  | cons e' rest ih =>
    obtain ⟨name', old⟩ := e'
    rw [upsert] at h
    split at h
    · rcases List.mem_cons.1 h with rfl | h
      · exact .inl rfl
      · exact .inr (List.mem_cons_of_mem _ h)
    · rcases List.mem_cons.1 h with rfl | h
      · exact .inr List.mem_cons_self
      · exact (ih h).imp id (List.mem_cons_of_mem _)

theorem forall_foldl_upsert {P : β → Prop} (fields known : List (String × β))
    (hknown : ∀ field ∈ known, P field.2) (h : ∀ field ∈ fields, P field.2) :
    ∀ field ∈ fields.foldl (fun known (name, t) => upsert name t known) known, P field.2 := by
  induction fields generalizing known with
  | nil => exact hknown
  | cons field rest ih =>
    refine ih _ (fun e he => ?_) fun e he => h e (List.mem_cons_of_mem _ he)
    rcases mem_upsert he with heq | hmem
    · rw [heq]
      exact h field List.mem_cons_self
    · exact hknown e hmem

theorem pairwise_upsert (hsymm : ∀ a b, R a b → R b a) (name : String)
    {b : β} {entries : List (String × β)} (h : entries.Pairwise fun e f => R e.2 f.2)
    (hb : ∀ e ∈ entries, R e.2 b) : (upsert name b entries).Pairwise fun e f => R e.2 f.2 := by
  induction entries with
  | nil => exact List.pairwise_singleton _ _
  | cons entry rest ih =>
    obtain ⟨n, old⟩ := entry
    obtain ⟨hold, hrest⟩ := List.pairwise_cons.1 h
    have hb' (e : String × β) (he : e ∈ rest) : R e.2 b := hb e (List.mem_cons_of_mem _ he)
    rw [upsert]
    split
    · exact List.pairwise_cons.2 ⟨fun e he => hsymm _ _ (hb' e he), hrest⟩
    · refine List.pairwise_cons.2 ⟨fun e he => ?_, ih hrest hb'⟩
      rcases mem_upsert he with heq | hmem
      · rw [heq]
        exact hb _ List.mem_cons_self
      · exact hold e hmem

theorem pairwise_foldl_upsert (hsymm : ∀ a b, R a b → R b a)
    (fields known : List (String × β)) (hknown : known.Pairwise fun e f => R e.2 f.2)
    (h : fields.Pairwise fun e f => R e.2 f.2) (hboth : ∀ e ∈ known, ∀ f ∈ fields, R e.2 f.2) :
    (fields.foldl (fun known (name, t) => upsert name t known) known).Pairwise
      fun e f => R e.2 f.2 := by
  induction fields generalizing known with
  | nil => exact hknown
  | cons field rest ih =>
    obtain ⟨hfirst, hrest⟩ := List.pairwise_cons.1 h
    refine ih _ (pairwise_upsert hsymm _ hknown fun e he => hboth e he _ List.mem_cons_self) hrest ?_
    intro e he f hf
    rcases mem_upsert he with heq | hmem
    · rw [heq]
      exact hfirst f hf
    · exact hboth e hmem f (List.mem_cons_of_mem _ hf)

theorem lookup_upsert_ne {name name' : String} (h : name' ≠ name) (b : β) (entries : List (String × β)) :
    (upsert name b entries).lookup name' = entries.lookup name' := by
  induction entries with
  | nil => simp [upsert, List.lookup_cons, beq_false_of_ne h]
  | cons entry rest ih =>
    obtain ⟨n, old⟩ := entry
    rw [upsert]
    split
    · rename_i heq
      simp [List.lookup_cons, eq_of_beq heq, beq_false_of_ne h]
    · rw [List.lookup_cons, List.lookup_cons, ih]

theorem lookup_foldl_upsert (entries known : List (String × β)) (h : (entries.map (·.1)).Nodup)
    (name : String) :
    (entries.foldl (fun known (name, b) => upsert name b known) known).lookup name =
      (entries.lookup name).or (known.lookup name) := by
  induction entries generalizing known with
  | nil => rfl
  | cons entry rest ih =>
    obtain ⟨n, b⟩ := entry
    obtain ⟨hnew, hrest⟩ := List.nodup_cons.1 h
    rw [List.foldl_cons, ih _ hrest, List.lookup_cons]
    by_cases hname : name = n
    · subst hname
      have hnone : rest.lookup name = none := by
        refine List.lookup_eq_none_iff.2 fun e he => ?_
        simpa using fun heq => hnew (List.mem_map.2 ⟨e, he, heq.symm⟩)
      rw [hnone, lookup_upsert, beq_self_eq_true]
      rfl
    · rw [lookup_upsert_ne hname, beq_false_of_ne hname]

theorem tupleSize_cases (fields : List (String × Target)) (total : Value) (s : Types) :
    (∃ e, tupleSize total fields s = (.error e, s)) ∨
      ∃ found size, tupleSize total fields s = (.ok (found, size), s) ∧
        fields = found.map (fun field => (field.1, .settled field.2)) ∧
        s.graph.totalSize total found = .ok size := by
  induction fields generalizing total with
  | nil => exact .inr ⟨[], total, rfl, rfl, rfl⟩
  | cons field rest ih =>
    obtain ⟨name, t | _⟩ := field
    · rw [tupleSize, bind_apply, get_apply]
      dsimp only
      rw [bind_apply, lift_apply]
      rcases hsize : s.graph.size t with e | size
      · exact .inl ⟨e, rfl⟩
      dsimp only
      rw [bind_apply, lift_apply]
      rcases hsum : liftMisuse (total.add size) with e | sum
      · exact .inl ⟨e, rfl⟩
      dsimp only
      rw [bind_apply]
      rcases ih sum with ⟨e, hfails⟩ | ⟨found, size', hfound, hfields, htotal⟩
      · rw [hfails]
        exact .inl ⟨e, rfl⟩
      · rw [hfound]
        refine .inr ⟨(name, t) :: found, size', rfl, by rw [hfields]; rfl, ?_⟩
        rw [Graph.totalSize, hsize, except_ok_bind, hsum, except_ok_bind, htotal]
    · exact .inl ⟨_, rfl⟩

theorem Graph.Sound.totalSize_isSize {g : Graph} (hg : g.Sound) {total size : Value}
    {fields : List (String × TypeId)} (htotal : IsSize total) (h : g.totalSize total fields = .ok size) :
    IsSize size := by
  induction fields generalizing total with
  | nil =>
    cases h
    exact htotal
  | cons field rest ih =>
    obtain ⟨one, hone, h⟩ := except_bind_ok h
    obtain ⟨sum, hsum, h⟩ := except_bind_ok h
    exact ih (htotal.add (hg.size_isSize hone) hsum) h

theorem addTuple_leaves {fields : List (String × Target)} {limits : Limits} {s s₀ : Types} {settling : Prop}
    (hs : s.Sound) (h : Unshared s₀ s fields) :
    Leaves (Change limits settling) s Nameless (addTuple fields s) := by
  have hfresh := forall_foldl_upsert (P := (·.Fresh s₀ s)) fields [] (fun _ hf => by cases hf) h.fresh
  have hapart := pairwise_foldl_upsert (R := fun a b : Target => a = b → a.Shareable s)
    (fun a b hab heq => heq ▸ hab heq.symm) fields [] .nil h.apart (fun _ hf => by cases hf)
  have hnodup := nodup_foldl_upsert fields [] List.nodup_nil
  rw [addTuple]
  dsimp only
  split
  · exact .error
  rw [bind_apply]
  rcases tupleSize_cases _ (.int 0) s with ⟨e, hfails⟩ | ⟨found, size, hfound, hfields, htotal⟩
  · rw [hfails]
    exact .error
  rw [hfound]
  rw [hfields] at hfresh hapart hnodup
  have hlink (u : TypeId) (hu : u ∈ (Node.tuple none found size).links) : (Target.settled u).Fresh s₀ s := by
    obtain ⟨field, hmem, rfl⟩ := List.mem_map.1 hu
    exact hfresh _ (List.mem_map_of_mem hmem)
  refine add_leaves hs ⟨fun u hu => (hlink u hu).usable hs, fun u hu => (hlink u hu).spare, ?_, ?_, ?_, htotal⟩
  · rw [List.pairwise_map] at hapart
    exact List.pairwise_map.2 (hapart.imp fun hef heq => hef (by rw [heq]))
  · exact hs.graph.totalSize_isSize ⟨0, rfl⟩ htotal
  · rw [List.map_map] at hnodup
    exact hnodup

theorem addEnum_leaves {limits : Limits} {s : Types} {settling : Prop} (hs : s.Sound) (names : List String) :
    Leaves (Change limits settling) s Nameless (addEnum names s) := by
  refine add_leaves hs ⟨fun u hu => ?_, fun u hu => ?_, .nil, trivial, ?_, trivial⟩
  · cases hu
  · cases hu
  · exact nodup_foldl_upsert _ [] List.nodup_nil

end Fields

section Settle

variable {s s' : Types}

theorem settleAll_shut (hs : s.Sound) (hm : settleAll s = (.ok (), s')) :
    ∀ t, s'.Registered t → Shut s' t := by
  rw [settleAll, settleAllWithin_apply] at hm
  have hlater := later_inTurn (settleEntry_later settleDepth) s.registry.types s
  rw [hm] at hlater
  intro t ht
  obtain ⟨name, hmem⟩ := hlater.registered.1 ht
  refine inTurn_each (P := fun (entry : String × Entry) s => ∀ t, entry.2 = .settled t → Shut s t)
    (settleEntry_later settleDepth)
    (fun entry s₁ s₂ h₁ h₂ hentry t ht => (hentry t ht).grow (h₂.grows (h₁.sound hs)))
    (fun entry hentry s₁ s₂ h₁ hdone t ht => ?_) (.refl s) hm (name, .settled t) hmem t rfl
  obtain ⟨name', target⟩ := entry
  cases ht
  have hs₁ := h₁.sound hs
  have hlt : t < s₁.graph.nodes.size := by
    rw [h₁.settles.size]
    exact (hs.usable ⟨name', hentry⟩).1
  rw [settleEntry_settled, settleVisit_apply] at hdone
  split at hdone
  · exact settleFrom_shut settleDepth t none s₁ s₂ hs₁ hlt (fun x hx => by cases hx) hdone
  · rename_i hunseen
    cases hdone
    exact hs₁.shut_of_unseen t [] hlt (fun x hx => by cases hx) (by simpa using hunseen)

end Settle

end Chalkboard.Types

namespace Chalkboard.Reading

open Effects Relation Chalkboard.Types
open Syntax (Program Declaration TypeDeclaration Sentence blockConstants)

section Heeds

variable {α β : Type} {P : Types → β → Prop} {Q : Types → α → Prop} {k : α → Declare β} {m : Declare α}
  {s : Types} {step : Types → Types → Prop}

/-- Reading from given types, step by step. -/
def Heeds (step : Types → Types → Prop) (s : Types) (m : Declare β) (P : Types → β → Prop) : Prop :=
  ∀ c, Leaves step s (fun s' found => P s' found.1) (m c s)

theorem Heeds.pure {b : β} (h : P s b) : Heeds step s (Pure.pure b) P := fun _ => .ok h

theorem Heeds.fails {m : Declare β} (h : ∀ c, ∃ e, m c s = (.error e, s)) : Heeds step s m P := by
  intro c
  obtain ⟨e, he⟩ := h c
  rw [he]
  exact .error

theorem Heeds.bind (hm : Heeds step s m Q)
    (hk : ∀ a s', ReflTransGen step s s' → Q s' a → Heeds step s' (k a) P) : Heeds step s (m >>= k) P :=
  fun c => Leaves.bind (m := m c) (k := fun found => k found.1 found.2) (hm c)
    fun found s' hs' hfound => hk found.1 s' hs' hfound found.2

theorem Heeds.learn {r : Read α} {R : α → Prop} (hm : Reads m r s) (hr : ∀ c, Yields r c fun a _ => R a)
    (hk : ∀ a, R a → Heeds step s (k a) P) : Heeds step s (m >>= k) P := by
  intro c
  rw [declare_bind, hm c]
  rcases hc : r c with e | ⟨a, c'⟩
  · exact .error
  · exact hk a (hr c a c' hc) c'

theorem Heeds.still {r : Read α} (hm : Reads m r s) (hk : ∀ a, Heeds step s (k a) P) :
    Heeds step s (m >>= k) P := .learn (R := fun _ => True) hm (fun _ _ _ _ => trivial) fun a _ => hk a

theorem Heeds.read {r : Read α} (hk : ∀ a, Heeds step s (k a) P) : Heeds step s (reading r >>= k) P :=
  .still (.reading r) hk

theorem Heeds.scope {setting : Setting} {k : Scope → Declare β} (h : Heeds step s (k (scopeIn setting s)) P) :
    Heeds step s (scopeOf setting >>= k) P := fun c => h c

theorem Heeds.ite {p : Prop} [Decidable p] {m m' : Declare β} (h : Heeds step s m P)
    (h' : Heeds step s m' P) : Heeds step s (if p then m else m') P := by
  split
  · exact h
  · exact h'

theorem Heeds.typing {m : TypesM β} (h : Leaves step s P (m s)) : Heeds step s (typing m) P :=
  fun _ => h.bind fun _ _ _ hb => .ok hb

end Heeds

section Head

variable {limits : Limits} {s : Types} {setting : Setting} {settling : Prop}

theorem scanAxes_filled (scope : Scope) (fuel : Nat) (c : Cursor) :
    Yields (scanAxes scope fuel) c fun axes _ => axes ≠ [] := by
  cases fuel with
  | zero => exact refuse_yields
  | succ fuel =>
    refine .then fun _ _ => .look (.ite ?_ ?_)
    · exact .then fun _ _ => .then fun _ _ => .pure (List.cons_ne_nil _ _)
    · exact .then fun _ _ => .pure (List.cons_ne_nil _ _)

theorem axes_plain {axes : List (Option Syntax.Expr × Syntax.Expr)} {spans : List (Int × Int)}
    (haxes : axes ≠ []) (h : axes.mapM spanOf = some spans) (element : TypeId) :
    (Node.array element (spans.map axisAlong)).Plain := by
  constructor
  · rintro hnil
    obtain rfl := List.map_eq_nil_iff.1 hnil
    obtain _ | ⟨axis, rest⟩ := axes
    · exact haxes rfl
    · simp [List.mapM_cons, Option.bind_eq_some_iff] at h
  · intro a ha
    obtain ⟨span, -, rfl⟩ := List.mem_map.1 ha
    exact ⟨⟨_, rfl⟩, _, rfl⟩

theorem add_heeds {s₀ : Types} {n : Node} {target : Target} (hs : s.Sound) (hadds : Adds s₀ s)
    (htarget : target.Fresh s₀ s) (hlinks : ∀ u ∈ n.links, target = .settled u) (hone : n.links.length ≤ 1)
    (hplain : n.Plain) (hdistinct : n.Distinct) (htotalled : n.Totalled s.graph) (hmade : n.isMade = true) :
    Heeds (Change limits settling) s (do return Target.settled (← typing (add n)))
      fun s' target => Adds s₀ s' ∧ target.Fresh s₀ s' := by
  refine fun c => ⟨.single (.add (addable_one hs htarget hlinks hone hplain hdistinct htotalled)), ?_⟩
  intro found hfound
  cases hfound
  exact fresh_add hs hadds htarget hlinks hmade

theorem readType_heeds (hs : s.Sound) (fuel : Nat) :
    Heeds (Change limits settling) s (readType setting fuel)
      fun s' target => Adds s s' ∧ target.Fresh s s' := by
  have hname (name : String) : Heeds (Change limits settling) s (do return (← typing get).target name)
      fun s' target => Adds s s' ∧ target.Fresh s s' := fun _ => .ok ⟨.refl s, target_fresh s name⟩
  induction fuel with
  | zero => exact .fails fun _ => ⟨_, rfl⟩
  | succ fuel ih =>
    refine .read fun t => ?_
    split
    · exact .read fun _ => hname _
    · exact .read fun _ => hname _
    · refine .read fun _ => .read fun _ => ih.bind fun target s₁ hcourse ⟨hadds, hfresh⟩ => ?_
      refine add_heeds (Course.grows hcourse hs).1 hadds hfresh (fun u hu => ?_) ?_ trivial trivial trivial rfl
      · cases target with
        | settled t => rw [List.mem_singleton.1 hu]
        | deferred => cases hu
      · cases target <;> simp [Node.links, Node.parts]
    · refine .read fun _ => .read fun _ => .learn (readAxes_reads fuel) (scanAxes_filled _ fuel)
        fun axes haxes => .read fun _ => ih.bind fun target s₁ hcourse ⟨hadds, hfresh⟩ => ?_
      split
      · exact .fails fun _ => ⟨_, rfl⟩
      · rename_i element _
        intro c
        rw [declare_bind, axes_apply]
        rcases hspans : axes.mapM spanOf with _ | spans
        · exact .error
        · refine add_heeds (Course.grows hcourse hs).1 hadds hfresh (fun u hu => ?_) ?_
            (axes_plain haxes hspans element) trivial trivial rfl c
          · rw [List.mem_singleton.1 hu]
          · exact Nat.le_refl 1
    · exact .fails fun _ => ⟨_, rfl⟩

theorem readFields_heeds (hs : s.Sound) (fuel : Nat) :
    Heeds (Change limits settling) s (readFields setting fuel)
      fun s' fields => Adds s s' ∧ Unshared s s' fields := by
  induction fuel generalizing s with
  | zero => exact .fails fun _ => ⟨_, rfl⟩
  | succ fuel ih =>
    refine .read fun t => ?_
    split
    · refine .read fun _ => .read fun _ => (readType_heeds hs fuel).bind
        fun target s₁ hcourse ⟨hadds, hfresh⟩ => .read fun _ => ?_
      have hs₁ := (Course.grows hcourse hs).1
      have hrest : Heeds (Change limits settling) s₁ (do return (t.text, target) :: (← readFields setting fuel))
          fun s' fields => Adds s s' ∧ Unshared s s' fields :=
        (ih hs₁).bind fun fields s' _ ⟨hadds', hfields⟩ =>
          .pure ⟨hadds.trans hadds', hfields.cons hfresh hs₁ hadds hadds'⟩
      exact .ite (.read fun _ => hrest) hrest
    · exact .read fun _ => .read fun _ => .pure ⟨.refl s, unshared_nil s s⟩
    · exact .fails fun _ => ⟨_, rfl⟩

theorem readConstants_heeds {step : Types → Types → Prop} (fuel : Nat) :
    Heeds step s (readConstants fuel) fun s' _ => s' = s := by
  induction fuel with
  | zero => exact .fails fun _ => ⟨_, rfl⟩
  | succ fuel ih =>
    have hrest (name : String) : Heeds step s (do return name :: (← readConstants fuel)) fun s' _ => s' = s :=
      ih.bind fun _ _ _ heq => .pure heq
    refine .read fun t => ?_
    split
    · exact .read fun _ => .read fun _ => .ite (.read fun _ => hrest _) (hrest _)
    · exact .read fun _ => .read fun _ => .pure rfl
    · exact .fails fun _ => ⟨_, rfl⟩

theorem readTypeBody_heeds (hs : s.Sound) :
    Heeds (Change limits settling) s (readTypeBody setting)
      fun s' body => Leaves (Change limits settling) s' Nameless (body s') := by
  refine .read fun fuel => .read fun t => ?_
  split
  · exact .read fun _ => (readConstants_heeds fuel).bind fun names s₁ hcourse _ =>
      .pure (addEnum_leaves (Course.grows hcourse hs).1 names)
  · exact .read fun _ => (readFields_heeds hs fuel).bind fun fields s₁ hcourse h =>
      .pure (addTuple_leaves (Course.grows hcourse hs).1 h.2)
  · exact (readType_heeds hs fuel).bind fun target s₁ hcourse h =>
      .pure (addSynonym_leaves (Course.grows hcourse hs).1 h.2)

theorem readTypeDeclaration_heeds (hs : s.Sound) :
    Heeds (Change setting.limits settling) s (readTypeDeclaration setting) fun _ _ => True := by
  refine .read fun _ => .read fun name => .read fun _ => .read fun _ => ?_
  refine (readTypeBody_heeds hs).bind fun body s₁ _ hbody => .read fun t => ?_
  refine .ite (.fails fun _ => ⟨_, rfl⟩) ((Heeds.typing hbody).bind fun type s₂ _ htype => ?_)
  refine .ite (.fails fun _ => ⟨_, rfl⟩) (Heeds.bind (Q := fun _ _ => True) (.typing ?_) fun _ _ _ _ => ?_)
  · exact ⟨.single (.name name.text htype), fun _ _ => trivial⟩
  · exact .read fun _ => .pure trivial

theorem readTypeSection_heeds (hs : s.Sound) (fuel : Nat) :
    Heeds (Change setting.limits settling) s (readTypeSection setting fuel) fun _ _ => True := by
  induction fuel generalizing s with
  | zero => exact .pure trivial
  | succ fuel ih =>
    refine .read fun _ => .ite ?_ (.pure trivial)
    exact (readTypeDeclaration_heeds hs).bind fun _ _ hcourse _ =>
      (ih (Course.grows hcourse hs).1).bind fun _ _ _ _ => .pure trivial

theorem readProcedures_heeds {step : Types → Types → Prop} (fuel : Nat) :
    Heeds step s (readProcedures fuel) fun _ _ => True := by
  induction fuel with
  | zero => exact .pure trivial
  | succ fuel ih =>
    exact .read fun _ => .ite (.read fun _ => ih.bind fun _ _ _ _ => .pure trivial) (.pure trivial)

theorem readHead_heeds (hs : s.Sound) :
    Heeds (Change setting.limits settling) s (readHead setting) fun _ _ => True :=
  .read fun fuel => (readTypeSection_heeds hs fuel).bind fun _ _ _ _ => .read fun fuel =>
    (readProcedures_heeds fuel).bind fun _ _ _ _ => .pure trivial

end Head

section Rest

variable {s : Types} {setting : Setting}

/-- A type that a variable may have: it has a name, or it is shut already. -/
def Ready (s : Types) (t : TypeId) : Prop := s.Usable t ∧ (s.Registered t ∨ Shut s t)

theorem Ready.grow {s' : Types} {t : TypeId} (h : Ready s t) (hg : Grows s s') : Ready s' t :=
  ⟨hg.usable h.1, h.2.imp hg.registered fun hshut => hshut.grow hg⟩

variable {limits : Limits}

theorem variableType_leaves {s₀ : Types} {target : Target} (hs : s.Sound) (h : target.Fresh s₀ s) :
    Leaves (Change limits True) s (fun s' t => Extends s s' ∧ Ready s' t) (variableType target s) := by
  cases target with
  | deferred side name =>
    rw [variableType, lookUpIn_apply]
    rcases hlookup : (s.home side).types.lookup name with _ | ⟨t | _⟩
    · exact .error
    · exact .ok ⟨.refl s, hs.usable (hs.home hlookup), .inl (hs.home hlookup)⟩
    · exact .error
  | settled t =>
    have ht := h.usable hs
    rw [variableType, bind_apply, get_apply]
    dsimp only
    split
    · have hlater := settleFrom_later settleDepth t none s
      refine Leaves.bind (Q := fun s' _ => Extends s s' ∧ Ready s' t) ⟨.single (.settle trivial hlater), ?_⟩
        fun _ _ _ h => .ok h
      refine fun _ hok => ⟨hlater.extends, (hlater.grows hs).usable ht, .inr ?_⟩
      exact settleFrom_shut settleDepth t none s _ hs ht.1 (fun x hx => by cases hx) (Prod.ext hok rfl)
    · rename_i hunseen
      exact .ok ⟨.refl s, ht, .inr (hs.shut_of_unseen t [] ht.1 (fun x hx => by cases hx) (by simpa using hunseen))⟩

/-- Words of a program that stand for constants of the types it was read with. -/
def Covered (s : Types) (words : List Syntax.Lexeme) : Prop := ∀ word ∈ words, word.text ∈ s.constantNames

theorem readDeclaration_heeds (hs : s.Sound) :
    Heeds (Change limits True) s (readDeclaration setting)
      fun s' d => Extends s s' ∧ Ready s' d.type ∧ Covered s d.place.constants := by
  refine .read fun _ => .scope (.learn (.reading _)
    (fun c v c' hread => (readVariable_takes _ c v c' hread).known) fun v hv => ?_)
  refine .read fun _ => .read fun fuel => (readType_heeds hs fuel).bind
    fun target s₁ hcourse ⟨hadds, hfresh⟩ => .read fun _ => ?_
  refine .ite (.fails fun _ => ⟨_, rfl⟩) (.ite (.fails fun _ => ⟨_, rfl⟩) ?_)
  refine (Heeds.typing (variableType_leaves (Course.grows hcourse hs).1 hfresh)).bind
    fun t s₂ _ ⟨hextends, hready⟩ => .read fun _ => .pure ⟨hadds.extends.trans hextends, hready, hv⟩

theorem Covered.extends {s' : Types} {words : List Syntax.Lexeme} (hs : s.Sound) (h : Extends s s') :
    Covered s' words ↔ Covered s words := by
  rw [Covered, h.constantNames fun t ht => (hs.usable ht).1, Covered]

theorem readVariableSection_heeds (hs : s.Sound) (fuel : Nat) :
    Heeds (Change limits True) s (readVariableSection setting fuel) fun s' ds =>
      Extends s s' ∧ (∀ d ∈ ds, Ready s' d.type) ∧ Covered s (ds.flatMap fun d => d.place.constants) := by
  have hnone {s : Types} : Heeds (Change limits True) s (Pure.pure ([] : List Declaration)) fun s' ds =>
      Extends s s' ∧ (∀ d ∈ ds, Ready s' d.type) ∧ Covered s (ds.flatMap fun d => d.place.constants) :=
    .pure ⟨.refl s, fun _ hd => (by cases hd), fun _ hword => absurd hword List.not_mem_nil⟩
  induction fuel generalizing s with
  | zero => exact hnone
  | succ fuel ih =>
    refine .read fun _ => .ite ?_ hnone
    refine (readDeclaration_heeds hs).bind fun d s₁ hcourse ⟨hextends, hready, hwords⟩ => ?_
    have hs₁ := (Course.grows hcourse hs).1
    refine (ih hs₁).bind fun ds s₂ hcourse' ⟨hextends', hall, hmore⟩ => .pure ⟨hextends.trans hextends', ?_, ?_⟩
    · intro e he
      rcases List.mem_cons.1 he with rfl | he
      · exact hready.grow (Course.grows hcourse' hs₁).2
      · exact hall e he
    · intro word hword
      rw [List.flatMap_cons, List.mem_append] at hword
      exact hword.elim (hwords word) ((Covered.extends hs hextends).1 hmore word)

theorem readRest_heeds (hs : s.Sound) (head : List TypeDeclaration × Nat) :
    Heeds (Change limits True) s (readRest setting head) fun s' p =>
      (∀ d ∈ p.declarations, Ready s' d.type) ∧ Covered s' p.constants := by
  refine .read fun fuel => (readVariableSection_heeds hs fuel).bind fun ds s₁ hcourse ⟨hextends, hready, hwords⟩ => ?_
  have hscan (c : Cursor) : Yields (scanEnd (scopeIn setting s₁)) c
      fun sentences _ => Covered s₁ (blockConstants sentences) :=
    (readSentences_takes _ c).bind fun sentences _ ⟨_, htook⟩ => .look
      (.ite (.never refuse_yields) (.pure htook.known))
  refine .learn readEnd_reads hscan fun sentences hsentences => .pure ⟨hready, fun word hword => ?_⟩
  rcases List.mem_append.1 hword with hword | hword
  · exact (Covered.extends hs hextends).2 hwords word hword
  · exact hsentences word hword

theorem readUnsettled_leaves (hs : s.Sound) (setting : Setting) (text : String) :
    Leaves (Change setting.limits True) s
      (fun s' p => (∀ d ∈ p.declarations, Ready s' d.type) ∧ Covered s' p.constants)
      (readUnsettled setting text s) := by
  refine Leaves.bind (Q := fun _ _ => True) ⟨.refl, fun _ _ => trivial⟩ fun start s₁ hcourse _ => ?_
  have hs₁ := (Course.grows hcourse hs).1
  have hsections : Heeds (Change setting.limits True) s₁ (readSections setting) fun s' p =>
      (∀ d ∈ p.declarations, Ready s' d.type) ∧ Covered s' p.constants := by
    rw [readSections_eq]
    exact (readHead_heeds hs₁).bind fun head s₂ hcourse' _ => readRest_heeds (Course.grows hcourse' hs₁).1 head
  exact (hsections start).bind fun _ _ _ hfound => .ok hfound

theorem readProgram_leaves (hs : s.Sound) (setting : Setting) (text : String) :
    Leaves (Change setting.limits True) s
      (fun s' p => (∀ t, s'.Registered t → Shut s' t) ∧ (∀ d ∈ p.declarations, s'.Usable d.type ∧ Shut s' d.type) ∧
        Covered s' p.constants)
      (readProgram setting text s) := by
  refine (readUnsettled_leaves hs setting text).bind fun p s₁ hcourse ⟨hready, hwords⟩ => ?_
  have hs₁ := (Course.grows hcourse hs).1
  have hlater := settleAll_later s₁
  refine Leaves.bind (Q := fun s' _ => (∀ t, s'.Registered t → Shut s' t) ∧ Later s₁ s')
    ⟨.single (.settle trivial hlater), fun _ hok => ⟨settleAll_shut hs₁ (Prod.ext hok rfl), hlater⟩⟩
    fun _ s₂ _ ⟨hall, hlater⟩ => .ok ⟨hall, fun d hd => ?_, (Covered.extends hs₁ hlater.extends).2 hwords⟩
  obtain ⟨husable, hnamed | hshut⟩ := (hready d hd).grow (hlater.grows hs₁)
  · exact ⟨husable, hall d.type hnamed⟩
  · exact ⟨husable, hshut⟩

end Rest

end Chalkboard.Reading

namespace Chalkboard.Types

theorem Graph.basic_node (t : TypeId) :
    (Graph.basic.node t).links = [] ∧ (Graph.basic.node t).isMade = false ∧ (Graph.basic.node t).Plain :=
  match t with
  | 0 | 1 | 2 | 3 | _ + 4 => ⟨rfl, rfl, trivial⟩

theorem sound_basic : Sound {} := by
  refine ⟨⟨fun t u hu => ?_, fun t => (Graph.basic_node t).2.2⟩, fun entry hmem => ?_,
    List.Subset.refl _, fun t u hu => ?_⟩
  · have hlink := Node.parts_subset_links hu
    rw [(Graph.basic_node t).1] at hlink
    cases hlink
  · simp only [Registry.basic, List.mem_cons, List.not_mem_nil, or_false] at hmem
    rcases hmem with rfl | rfl | rfl | rfl
    all_goals exact ⟨_, rfl, by decide, _, rfl⟩
  · rw [(Graph.basic_node t).1] at hu
    cases hu

end Chalkboard.Types

namespace Chalkboard.Reading

open Effects Chalkboard.Types
open Syntax (Program)

section Program

variable {p : Program} {s s' : Types} {setting : Setting} {text : String}

theorem readProgram_course (hs : s.Sound) (setting : Setting) (text : String) :
    Course setting.limits True s (readProgram setting text s).2 := (readProgram_leaves hs setting text).course

theorem readProgram_keeps {I : Types → Prop} (hs : s.Sound) (hi : I s)
    (hI : ∀ s s', s.Sound → I s → Change setting.limits True s s' → I s')
    (h : (readProgram setting text).run s = (.ok p, s')) : I s' := by
  have hcourse := readProgram_course hs setting text
  rw [show readProgram setting text s = (.ok p, s') from h] at hcourse
  exact (Course.keeps hcourse hs hi hI).2.2

theorem readProgram_grows (hs : s.Sound) (h : readProgram setting text s = (.ok p, s')) : Grows s s' := by
  have hcourse := readProgram_course hs setting text
  rw [h] at hcourse
  exact (Course.grows hcourse hs).2

theorem readProgram_shut_from (hs : s.Sound) (h : (readProgram setting text).run s = (.ok p, s')) :
    s'.Sound ∧ (∀ t, s'.Registered t → Shut s' t) ∧
      ∀ d ∈ p.declarations, s'.Usable d.type ∧ Shut s' d.type := by
  have hread := readProgram_leaves hs setting text
  rw [show readProgram setting text s = (.ok p, s') from h] at hread
  obtain ⟨hshut, hvariables, -⟩ := hread.result p rfl
  exact ⟨(Course.grows hread.course hs).1, hshut, hvariables⟩

theorem readProgram_shut (h : (readProgram setting text).run {} = (.ok p, s)) :
    s.Sound ∧ (∀ t, s.Registered t → Shut s t) ∧
      ∀ d ∈ p.declarations, s.Usable d.type ∧ Shut s d.type := readProgram_shut_from sound_basic h

theorem readProgram_sound (h : (readProgram setting text).run {} = (.ok p, s)) : s.Sound :=
  (readProgram_shut h).1

def declareAnnounced (a : Announcement) : TypesM Program := do
  let program ← declareUnsettled a
  Types.settleAll
  return program

theorem readUnsettled_announced (setting : Setting) (hs : s.Sound) (text : String) :
    match readAnnounced setting text s with
    | (.ok a, s₀) => s₀.Sound ∧ readUnsettled setting text s = declareUnsettled a s₀
    | (.error _, _) => ∃ e, (readUnsettled setting text s).1 = .error e := by
  rw [readAnnounced, readUnsettled, bind_apply, bind_apply, lift_apply]
  rcases ({ rest := text.toList : Source }).next .start none with e | start
  · exact ⟨e, rfl⟩
  dsimp only
  rw [bind_apply, bind_apply, readSections_eq]
  have hsections : StateT.run (readHead setting >>= readRest setting) start s = _ :=
    declare_bind (readHead setting) (readRest setting) start s
  rw [hsections, show StateT.run (readHead setting) start s = readHead setting start s from rfl]
  rcases hhead : readHead setting start s with ⟨e | ⟨head, c⟩, s₀⟩
  · exact ⟨e, rfl⟩
  have hs₀ : s₀.Sound := by
    have hread : Leaves (Change setting.limits True) s _ (readHead setting start s) := readHead_heeds hs start
    rw [hhead] at hread
    exact (Course.grows hread.course hs).1
  have hrest : Follows (readRest setting head) (scanRest (scopeIn setting s₀)) _ c s₀ :=
    readRest_follows head c s₀ fun t ht => (hs₀.usable ht).1
  dsimp only
  rw [bind_apply, get_apply]
  dsimp only
  rw [bind_apply, lift_apply]
  have hscan : StateT.run (scanRest ⟨s₀.constantNames, setting.environment⟩) c =
      scanRest (scopeIn setting s₀) c := rfl
  rw [hscan]
  rw [Follows] at hrest
  rcases hfound : scanRest (scopeIn setting s₀) c with e | ⟨found, c'⟩
  · rw [hfound] at hrest
    obtain ⟨e', he'⟩ := hrest
    rcases hread : readRest setting head c s₀ with ⟨e'' | _, s'⟩
    · exact ⟨e'', rfl⟩
    · rw [hread] at he'
      cases he'
  · rw [hfound] at hrest
    refine ⟨hs₀, ?_⟩
    dsimp only at hrest ⊢
    rw [hrest]
    rcases declareUnsettled ⟨head.1, head.2, found.1, found.2⟩ s₀ with ⟨_ | _, _⟩ <;> rfl

theorem announced_of_read (hs : s.Sound) (h : readProgram setting text s = (.ok p, s')) :
    ∃ a s₀, readAnnounced setting text s = (.ok a, s₀) := by
  have hannounced := readUnsettled_announced setting hs text
  obtain ⟨p', s₁, hread, -⟩ := bind_ok h
  rcases hfound : readAnnounced setting text s with ⟨e | a, s₀⟩
  · rw [hfound] at hannounced
    obtain ⟨e', he'⟩ := hannounced
    rw [hread] at he'
    cases he'
  · exact ⟨a, s₀, rfl⟩

theorem readProgram_of_announced (hs : s.Sound) {a : Announcement} {s₀ : Types}
    (h : readAnnounced setting text s = (.ok a, s₀)) :
    s₀.Sound ∧ readProgram setting text s = declareAnnounced a s₀ := by
  have hannounced := readUnsettled_announced setting hs text
  rw [h] at hannounced
  obtain ⟨hs₀, hread⟩ := hannounced
  refine ⟨hs₀, ?_⟩
  rw [readProgram, declareAnnounced, bind_apply, hread, bind_apply]

end Program

end Chalkboard.Reading
