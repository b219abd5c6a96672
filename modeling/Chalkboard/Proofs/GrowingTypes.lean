import Chalkboard.Proofs.SettleCircles
import Chalkboard.Proofs.SoundTypes

/-! What becomes of types while a program is read. New types come after those at hand, a type may be
given a name, and an open target may be settled, as a type that has a name. A type that is shut, so that
no open target lies behind it this side of the next name, stays shut, and settling shuts the type that it
is asked to settle. -/

namespace Chalkboard.Types

open Effects

def Node.unnamed : Node → Node
  | .tuple _ fields size => .tuple none fields size
  | .enum _ constants => .enum none constants
  | .synonym _ of => .synonym none of
  | n => n

def Node.meant : Node → Option TypeId
  | .synonym _ of => some of
  | _ => none

namespace Node

variable {n n' : Node}

theorem parts_subset_links : n.parts ⊆ n.links := by
  rcases n with _ | _ | _ | _ | ⟨_ | _⟩ | _ | _ | _ | _
  case pointer.settled => exact List.nil_subset _
  all_goals exact List.Subset.refl _

theorem unnamed_named (name : String) : (n.named name).unnamed = n.unnamed := by
  cases n <;> rfl

theorem parts_unnamed : n.unnamed.parts = n.parts := by
  cases n <;> rfl

theorem links_unnamed : n.unnamed.links = n.links := by
  cases n <;> rfl

theorem isMade_unnamed : n.unnamed.isMade = n.isMade := by
  cases n <;> rfl

theorem isOpen_unnamed : n.unnamed.isOpen = n.isOpen := by
  cases n <;> rfl

theorem meant_unnamed : n.unnamed.meant = n.meant := by
  cases n <;> rfl

theorem plain_unnamed : n.unnamed.Plain ↔ n.Plain := by
  cases n <;> rfl

theorem eq_of_unnamed_pointer {target : Target} (h : n.unnamed = .pointer target) :
    n = .pointer target := by
  cases n <;> first | exact h | cases h

theorem isMade_of_isOpen (h : n.isOpen = true) : n.isMade = true ∧ n.parts = [] ∧ n.meant = none := by
  rcases n with _ | _ | _ | _ | ⟨_ | _⟩ | _ | _ | _ | _
  case pointer.deferred => exact ⟨rfl, rfl, rfl⟩
  all_goals cases h

end Node

/-- What can become of types: more of them, more names, and open targets settled. -/
structure Grows (s s' : Types) : Prop where
  size : s.graph.nodes.size ≤ s'.graph.nodes.size
  names : s.registry.types ⊆ s'.registry.types
  node {t : TypeId} (ht : t < s.graph.nodes.size) :
    (s'.graph.node t).unnamed = (s.graph.node t).unnamed ∨
      (s.graph.node t).isOpen = true ∧ ∃ u, s'.Registered u ∧ s'.graph.node t = .pointer (.settled u)

def Usable (s : Types) (t : TypeId) : Prop :=
  t < s.graph.nodes.size ∧ (s.Registered t ∨ (s.graph.node t).isMade = true)

section Grows

variable {s s' s'' : Types} {t u : TypeId}

theorem Grows.refl (s : Types) : Grows s s :=
  ⟨Nat.le_refl _, List.Subset.refl _, fun _ => .inl rfl⟩

theorem Grows.registered (h : Grows s s') (ht : s.Registered t) : s'.Registered t := by
  obtain ⟨name, hmem⟩ := ht
  exact ⟨name, h.names hmem⟩

theorem Grows.trans (h : Grows s s') (h' : Grows s' s'') : Grows s s'' := by
  refine ⟨Nat.le_trans h.size h'.size, fun _ hmem => h'.names (h.names hmem), fun {t} ht => ?_⟩
  have ht' := Nat.lt_of_lt_of_le ht h.size
  rcases h.node ht with hsame | ⟨hopen, u, hu, hnode⟩
  · rcases h'.node ht' with hsame' | ⟨hopen', hsettled⟩
    · exact .inl (hsame'.trans hsame)
    · rw [← Node.isOpen_unnamed, hsame, Node.isOpen_unnamed] at hopen'
      exact .inr ⟨hopen', hsettled⟩
  · rcases h'.node ht' with hsame' | ⟨hopen', -⟩
    · rw [hnode] at hsame'
      exact .inr ⟨hopen, u, h'.registered hu, Node.eq_of_unnamed_pointer hsame'⟩
    · rw [hnode] at hopen'
      cases hopen'

theorem Grows.keeps (h : Grows s s') (ht : t < s.graph.nodes.size) :
    (s'.graph.node t).parts = (s.graph.node t).parts ∧
      (s'.graph.node t).isMade = (s.graph.node t).isMade ∧
      (s'.graph.node t).meant = (s.graph.node t).meant := by
  rcases h.node ht with hsame | ⟨hopen, u, -, hnode⟩
  · refine ⟨?_, ?_, ?_⟩
    · rw [← Node.parts_unnamed, hsame, Node.parts_unnamed]
    · rw [← Node.isMade_unnamed, hsame, Node.isMade_unnamed]
    · rw [← Node.meant_unnamed, hsame, Node.meant_unnamed]
  · obtain ⟨hmade, hparts, hmeant⟩ := Node.isMade_of_isOpen hopen
    rw [hnode, hmade, hparts, hmeant]
    exact ⟨rfl, rfl, rfl⟩

theorem Grows.usable (h : Grows s s') (ht : s.Usable t) : s'.Usable t :=
  ⟨Nat.lt_of_lt_of_le ht.1 h.size, ht.2.imp h.registered fun hmade => (h.keeps ht.1).2.1.trans hmade⟩

theorem Graph.closureFrom_meant (g : Graph) (fuel : Nat) (t : TypeId) :
    g.closureFrom (fuel + 1) t = match (g.node t).meant with
      | some of => g.closureFrom fuel of
      | none => .ok t := by
  rw [closureFrom]
  cases g.node t <;> rfl

theorem Graph.closure_meant (g : Graph) (t : TypeId) :
    g.closure t = match (g.node t).meant with
      | some of => g.closureFrom synonymLimit of
      | none => .ok t := by
  rw [closure]
  cases g.node t <;> rfl

theorem Node.meant_mem_parts {n : Node} {of : TypeId} (h : n.meant = some of) : of ∈ n.parts := by
  cases n <;> cases h
  exact List.mem_cons_self

theorem Graph.closure_eq (g : Graph) (t : TypeId) : g.closure t = g.closureFrom (synonymLimit + 1) t := by
  rw [closure_meant, closureFrom_meant]

theorem Graph.closure_induct {g : Graph} {P : TypeId → Prop} (h : g.closure t = .ok u)
    (hself : (g.node u).meant = none → P u) (hstep : ∀ t of, (g.node t).meant = some of → P of → P t) :
    P t := by
  rw [closure_eq] at h
  generalize synonymLimit + 1 = fuel at h
  induction fuel generalizing t with
  | zero => cases h
  | succ fuel ih =>
    rw [closureFrom_meant] at h
    rcases hmeant : (g.node t).meant with _ | of <;> rw [hmeant] at h
    · cases h
      exact hself hmeant
    · exact hstep t of hmeant (ih h)

theorem Graph.meant_closure {g : Graph} (h : g.closure t = .ok u) : (g.node u).meant = none :=
  closure_induct (P := fun _ => (g.node u).meant = none) h id fun _ _ _ => id

theorem Graph.closure_self {g : Graph} (h : (g.node t).meant = none) : g.closure t = .ok t := by
  rw [closure_meant, h]

theorem Graph.strip_self {g : Graph} (fuel : Nat) (h : (g.node t).meant = none) : g.strip (fuel + 1) t = t := by
  rw [strip]
  split
  · rename_i of hnode
    rw [hnode] at h
    cases h
  · rfl

theorem Graph.closure_congr {g g' : Graph} {P : TypeId → Prop}
    (hsame : ∀ t, P t → (g'.node t).meant = (g.node t).meant)
    (hstep : ∀ t of, P t → (g.node t).meant = some of → P of) (ht : P t) : g'.closure t = g.closure t := by
  rw [closure_eq, closure_eq]
  generalize synonymLimit + 1 = fuel
  induction fuel generalizing t with
  | zero => rfl
  | succ fuel ih =>
    rw [closureFrom_meant, closureFrom_meant, hsame t ht]
    rcases hmeant : (g.node t).meant with _ | of
    · rfl
    · exact ih (hstep t of ht hmeant)

theorem Grows.closure (h : Grows s s') (ordered : s.graph.Ordered) (ht : t < s.graph.nodes.size) :
    s'.graph.closure t = s.graph.closure t :=
  Graph.closure_congr (fun _ ht => (h.keeps ht).2.2)
    (fun t of ht hmeant => Nat.lt_trans (ordered t of (Node.meant_mem_parts hmeant)) ht) ht

theorem Sound.usable (hs : s.Sound) (ht : s.Registered t) : s.Usable t := by
  obtain ⟨name, hmem⟩ := ht
  obtain ⟨t', heq, hlt, -⟩ := hs.names _ hmem
  cases heq
  exact ⟨hlt, .inl ⟨name, hmem⟩⟩

theorem Sound.closes (hs : s.Sound) (ht : s.Usable t) : ∃ u, s.graph.closure t = .ok u := by
  rcases ht.2 with ⟨name, hmem⟩ | hmade
  · obtain ⟨t', heq, -, hcloses⟩ := hs.names _ hmem
    cases heq
    exact hcloses
  · refine ⟨t, ?_⟩
    rw [Graph.closure_meant]
    generalize s.graph.node t = n at hmade
    cases n <;> first | rfl | cases hmade

theorem Sound.link_usable (hs : s.Sound) (hu : u ∈ (s.graph.node t).links) : s.Usable u := by
  rcases hs.tied t u hu with hnamed | ⟨hlt, hmade⟩
  · exact hs.usable hnamed
  · exact ⟨Nat.lt_trans hlt (Graph.lt_size_of_link hu), .inr hmade⟩

/-- What a new type must be like. -/
structure Fitting (s : Types) (t : TypeId) : Prop where
  parts : ∀ u ∈ (s.graph.node t).parts, u < t
  plain : (s.graph.node t).Plain
  tied : ∀ u ∈ (s.graph.node t).links, s.Registered u ∨ u < t ∧ (s.graph.node u).isMade = true

theorem fitting_of_size_le (h : s.graph.nodes.size ≤ t) : s.Fitting t := by
  have hint := Graph.node_of_size_le h
  refine ⟨fun u hu => ?_, ?_, fun u hu => ?_⟩
  · rw [hint] at hu
    cases hu
  · rw [hint]
    trivial
  · rw [hint] at hu
    cases hu

theorem Grows.fitting (h : Grows s s') (hs : s.Sound) (ht : t < s.graph.nodes.size) : s'.Fitting t := by
  refine ⟨fun u hu => ?_, ?_, fun u hu => ?_⟩
  · rw [(h.keeps ht).1] at hu
    exact hs.graph.ordered t u hu
  · rcases h.node ht with hsame | ⟨-, u, -, hnode⟩
    · rw [← Node.plain_unnamed, hsame, Node.plain_unnamed]
      exact hs.graph.plain t
    · rw [hnode]
      trivial
  · rcases h.node ht with hsame | ⟨-, target, htarget, hnode⟩
    · rw [← Node.links_unnamed, hsame, Node.links_unnamed] at hu
      refine (hs.tied t u hu).imp h.registered fun ⟨hlt, hmade⟩ => ⟨hlt, ?_⟩
      rw [(h.keeps (Nat.lt_trans hlt ht)).2.1]
      exact hmade
    · rw [hnode] at hu
      rw [List.mem_singleton.1 hu]
      exact .inl htarget

theorem Grows.sound (h : Grows s s') (hs : s.Sound)
    (hnew : ∀ t, s.graph.nodes.size ≤ t → s'.Fitting t)
    (hnames : ∀ entry ∈ s'.registry.types, entry ∈ s.registry.types ∨
      ∃ t, entry.2 = .settled t ∧ t < s'.graph.nodes.size ∧ ∃ u, s'.graph.closure t = .ok u)
    (hstandby : s'.standby = s.standby) : s'.Sound := by
  have hfits (t : TypeId) : s'.Fitting t := by
    by_cases ht : t < s.graph.nodes.size
    · exact h.fitting hs ht
    · exact hnew t (Nat.le_of_not_lt ht)
  refine ⟨⟨fun t => (hfits t).parts, fun t => (hfits t).plain⟩, fun entry hmem => ?_, ?_,
    fun t => (hfits t).tied⟩
  · rcases hnames entry hmem with hold | hentry
    · obtain ⟨t, heq, hlt, u, hu⟩ := hs.names entry hold
      exact ⟨t, heq, Nat.lt_of_lt_of_le hlt h.size, u, (h.closure hs.graph.ordered hlt).trans hu⟩
    · exact hentry
  · rw [hstandby]
    exact fun _ hmem => h.names (hs.standby hmem)

end Grows

section Settle

variable {s s' s₀ : Types} {t : TypeId}

variable {name : String} {side : Side} {told : Option (List TypeId)} {β : Type} {b : β}
  {entries : List (String × β)}

theorem mem_of_lookup
    (h : entries.lookup name = some b) : (name, b) ∈ entries := by
  induction entries with
  | nil => cases h
  | cons e rest ih =>
    obtain ⟨key, c⟩ := e
    rw [List.lookup_cons] at h
    split at h
    · rename_i heq
      cases h
      obtain rfl := eq_of_beq heq
      exact List.mem_cons_self
    · exact List.mem_cons_of_mem _ (ih h)

theorem lookup_of_mem (h : (entries.map (·.1)).Nodup) (hmem : (name, b) ∈ entries) :
    entries.lookup name = some b := by
  induction entries with
  | nil => exact absurd hmem List.not_mem_nil
  | cons entry rest ih =>
    obtain ⟨n, b'⟩ := entry
    rw [List.map_cons, List.nodup_cons] at h
    rcases List.mem_cons.1 hmem with heq | hmem
    · cases heq
      simp
    · have hne : (name == n) = false := by
        refine beq_false_of_ne fun heq => h.1 ?_
        exact List.mem_map.2 ⟨(name, b), hmem, heq⟩
      rw [List.lookup_cons, hne]
      exact ih h.2 hmem

theorem registered_of_home (hstandby : s.standby.types ⊆ s.registry.types)
    (h : (s.home side).types.lookup name = some (.settled t)) : s.Registered t := by
  refine ⟨name, ?_⟩
  unfold Types.home at h
  split at h
  · exact mem_of_lookup h
  · exact hstandby (mem_of_lookup h)

theorem Sound.home (hs : s.Sound)
    (h : (s.home side).types.lookup name = some (.settled t)) : s.Registered t :=
  registered_of_home hs.standby h

theorem Later.registry (h : Later s s') : s'.registry = s.registry := by
  rw [h.rest]

theorem Later.registered (h : Later s s') : s'.Registered t ↔ s.Registered t := by
  rw [Registered, Registered, h.registry]

theorem Later.grows (h : Later s s') (hs : s.Sound) : Grows s s' := by
  refine ⟨Nat.le_of_eq h.settles.size.symm, ?_, fun {t} _ => ?_⟩
  · rw [h.registry]
    exact List.Subset.refl _
  · rcases h.settles.node t with hsame | ⟨hopen, u, hnode⟩
    · exact .inl (by rw [hsame])
    · refine .inr ⟨hopen, u, ?_, hnode⟩
      rcases hwas : s.graph.node t with _ | _ | _ | _ | ⟨_ | _⟩ | _ | _ | _ | _
      case pointer.deferred => exact h.registered.2 (hs.home (h.named hwas hnode))
      all_goals
        rw [hwas] at hopen
        cases hopen

theorem Later.sound (h : Later s s') (hs : s.Sound) : s'.Sound := by
  refine (h.grows hs).sound hs (fun t ht => fitting_of_size_le ?_) (fun entry hmem => .inl ?_) ?_
  · rw [h.settles.size]
    exact ht
  · rwa [h.registry] at hmem
  · rw [h.rest]

/-- No open target lies behind a type this side of the next name. -/
inductive Shut (s : Types) : TypeId → Prop
  | intro {t : TypeId} (hlt : t < s.graph.nodes.size) (hopen : (s.graph.node t).isOpen = false)
      (hlinks : ∀ u ∈ (s.graph.node t).links, ¬s.Registered u → Shut s u) : Shut s t

theorem Shut.grow (h : Shut s t) (hgrows : Grows s s') : Shut s' t := by
  induction h with
  | intro hlt hopen _ ih =>
    rename_i t _
    rcases hgrows.node hlt with hsame | ⟨hwas, -⟩
    · refine ⟨Nat.lt_of_lt_of_le hlt hgrows.size, ?_, fun u hu hname => ?_⟩
      · rwa [← Node.isOpen_unnamed, hsame, Node.isOpen_unnamed]
      · rw [← Node.links_unnamed, hsame, Node.links_unnamed] at hu
        exact ih u hu fun hold => hname (hgrows.registered hold)
    · rw [hopen] at hwas
      cases hwas

/-- A type behind which no open target is seen is shut. Until the next name the way goes down in the
graph, so a trail of types further up never stops it. -/
theorem Sound.shut_of_unseen (hs : s.Sound) (t : TypeId) (trail : List TypeId)
    (ht : t < s.graph.nodes.size) (htrail : ∀ x ∈ trail, t < x)
    (hunseen : s.graph.hasDeferrals t trail = false) : Shut s t := by
  induction t using Nat.strongRecOn generalizing trail with
  | ind t ih =>
    have hoff : trail.contains t = false := by
      simpa using fun hmem => Nat.lt_irrefl t (htrail t hmem)
    have hbehind (u : TypeId) (hu : u ∈ (s.graph.node t).links) (hname : ¬s.Registered u)
        (hseen : s.graph.hasDeferrals u (t :: trail) = false) : Shut s u := by
      have hlt : u < t := ((hs.tied t u hu).resolve_left hname).1
      refine ih u hlt (t :: trail) (Nat.lt_trans hlt ht) (fun x hx => ?_) hseen
      rcases List.mem_cons.1 hx with rfl | hx
      · exact hlt
      · exact Nat.lt_trans hlt (htrail x hx)
    rw [hs.graph.ordered.hasDeferrals_eq, hoff] at hunseen
    have hopen : (s.graph.node t).isOpen = false := by
      rcases hnode : s.graph.node t with _ | _ | _ | _ | ⟨_ | _⟩ | _ | _ | _ | _
      case pointer.deferred =>
        rw [hnode] at hunseen
        cases hunseen
      all_goals rfl
    refine ⟨ht, hopen, fun u hu hname => ?_⟩
    rcases hnode : s.graph.node t with _ | _ | _ | _ | ⟨target | _⟩ | _ | ⟨_, fields⟩ | _ | _
    all_goals rw [hnode] at hunseen hbehind hu
    case tuple =>
      obtain ⟨field, hmem, rfl⟩ := List.mem_map.1 hu
      exact hbehind _ hu hname (by simpa using List.any_eq_false.1 hunseen field hmem)
    case pointer.settled | array | synonym =>
      refine hbehind u hu hname ?_
      rw [List.mem_singleton.1 hu]
      exact hunseen
    all_goals cases hu

theorem inTurn_each {α : Type} {each : α → Nat → TypesM Unit} {depth : Nat} {P : α → Types → Prop}
    (hlater : ∀ a s, Later s (each a depth s).2)
    (hkeep : ∀ a s s', Later s₀ s → Later s s' → P a s → P a s') {xs : List α}
    (heach : ∀ a ∈ xs, ∀ s s', Later s₀ s → each a depth s = (.ok (), s') → P a s') {s s' : Types}
    (hs : Later s₀ s) (hdone : inTurn each xs depth s = (.ok (), s')) : ∀ a ∈ xs, P a s' := by
  induction xs generalizing s with
  | nil =>
    intro a ha
    cases ha
  | cons b rest ih =>
    rw [inTurn_cons] at hdone
    obtain ⟨_, s₁, hhead, htail⟩ := bind_ok hdone
    have hs₁ := hlater b s
    rw [hhead] at hs₁
    have hs₁ := hs.trans hs₁
    intro a ha
    rcases List.mem_cons.1 ha with rfl | ha
    · have hrest := later_inTurn hlater rest s₁
      rw [htail] at hrest
      exact hkeep a s₁ s' hs₁ hrest (heach a List.mem_cons_self s s₁ hs hhead)
    · exact ih (fun c hc => heach c (List.mem_cons_of_mem _ hc)) hs₁ htail a ha

theorem exists_visit (hself : settleSelf t told s = (.ok (), s'))
    {u : TypeId} (hu : u ∈ (s.graph.node t).links) :
    ∃ v ∈ s.graph.visits t told, v.part = u ∧ v.trail = t :: told.getD [] ∧
      v.told.getD [] ⊆ t :: told.getD [] := by
  rw [settleSelf_apply] at hself
  rw [Graph.visits]
  rcases hnode : s.graph.node t with _ | _ | _ | _ | ⟨target | _⟩ | _ | ⟨_, fields⟩ | _ | _
  all_goals rw [hnode] at hu hself
  case pointer.settled =>
    exact ⟨_, List.mem_cons_self, (List.mem_singleton.1 hu).symm, rfl, List.nil_subset _⟩
  case array =>
    cases told with
    | none => cases hself
    | some trail =>
      exact ⟨_, List.mem_cons_self, (List.mem_singleton.1 hu).symm, rfl, List.Subset.refl _⟩
  case synonym =>
    exact ⟨_, List.mem_cons_self, (List.mem_singleton.1 hu).symm, rfl, List.Subset.refl _⟩
  case tuple =>
    obtain ⟨field, hmem, rfl⟩ := List.mem_map.1 hu
    exact ⟨_, List.mem_map_of_mem hmem, rfl, rfl, List.Subset.refl _⟩
  all_goals cases hu

theorem visits_link {g : Graph} {v : Visit} (hv : v ∈ g.visits t told) :
    v.part ∈ (g.node t).links := by
  rw [Graph.visits] at hv
  rcases hnode : g.node t with _ | _ | _ | _ | ⟨target | _⟩ | _ | ⟨_, fields⟩ | _ | _
  all_goals rw [hnode] at hv
  case pointer.settled | synonym =>
    rw [List.mem_singleton.1 hv]
    exact List.mem_cons_self
  case array =>
    cases told with
    | none => cases hv
    | some trail =>
      rw [List.mem_singleton.1 hv]
      exact List.mem_cons_self
  case tuple =>
    obtain ⟨field, hmem, rfl⟩ := List.mem_map.1 hv
    exact List.mem_map_of_mem hmem
  all_goals cases hv

theorem settleSelf_shut (hs : s.Sound)
    (hself : settleSelf t told s = (.ok (), s')) :
    (s.graph.visits t told = [] ∧ Shut s' t) ∨ (s' = s ∧ (s.graph.node t).isOpen = false) := by
  rw [settleSelf_apply] at hself
  rw [Graph.visits]
  rcases hnode : s.graph.node t with _ | _ | _ | _ | ⟨_ | ⟨side, name⟩⟩ | _ | _ | _ | _
  all_goals rw [hnode] at hself
  case pointer.deferred =>
    left
    dsimp only at hself
    split at hself
    · rename_i target hlookup
      cases hself
      have hlt : t < s.graph.nodes.size := Graph.lt_size_of_node (by rw [hnode]; simp)
      refine ⟨rfl, by rwa [Graph.size_set], ?_, fun u hu hname => ?_⟩
      · rw [Graph.node_set_self hlt]
        rfl
      · rw [Graph.node_set_self hlt] at hu
        rw [List.mem_singleton.1 hu] at hname
        exact absurd (hs.home hlookup) hname
    · cases hself
    · cases hself
  case array =>
    right
    cases told with
    | none => cases hself
    | some _ =>
      cases hself
      exact ⟨rfl, rfl⟩
  all_goals
    right
    cases hself
    exact ⟨rfl, rfl⟩

theorem settleFrom_shut (depth : Nat) (t : TypeId) (told : Option (List TypeId)) (s s' : Types)
    (hs : s.Sound) (ht : t < s.graph.nodes.size) (htold : ∀ x ∈ told.getD [], t < x)
    (hdone : settleFrom depth t told s = (.ok (), s')) : Shut s' t := by
  induction depth generalizing t told s s' with
  | zero => cases hdone
  | succ depth ih =>
    rw [settleFrom_succ] at hdone
    obtain ⟨_, s₁, hself, hvisits⟩ := bind_ok hdone
    have hlater := visits_later (s.graph.visits t told) depth s₁
    rw [hvisits] at hlater
    rcases settleSelf_shut hs hself with ⟨hnone, hshut⟩ | ⟨rfl, hopen⟩
    · rw [hnone] at hvisits
      cases hvisits
      exact hshut
    -- every part that is visited and has no name lies below the type, and so below the trail
    have hparts := inTurn_each (P := fun (v : Visit) s' => (∀ x ∈ v.trail, v.part < x) →
        v.told.getD [] ⊆ v.trail → Shut s' v.part)
      (settleVisit_later (settleFrom_later depth))
      (fun v s₁ s₂ h₁ h₂ hv htrail htold => (hv htrail htold).grow (h₂.grows (h₁.sound hs)))
      (fun v hv s₁ s₂ h₁ hdone htrail hsub => ?_) (.refl s₁) hvisits
    · have hsame : s'.graph.node t = s₁.graph.node t := by
        rcases hlater.settles.node t with hsame | ⟨hwas, -⟩
        · exact hsame
        · rw [hopen] at hwas
          cases hwas
      refine ⟨by rwa [hlater.settles.size], by rwa [hsame], fun u hu hname => ?_⟩
      rw [hsame] at hu
      rw [hlater.registered] at hname
      obtain ⟨v, hv, rfl, htrail, hsub⟩ := exists_visit hself hu
      have hlt : v.part < t := ((hs.tied t _ hu).resolve_left hname).1
      refine hparts v hv (fun x hx => ?_) (by rwa [htrail])
      rw [htrail] at hx
      rcases List.mem_cons.1 hx with rfl | hx
      · exact hlt
      · exact Nat.lt_trans hlt (htold x hx)
    · have hs₁ := h₁.sound hs
      have hpart : v.part < s₁.graph.nodes.size := by
        rw [h₁.settles.size]
        exact (hs.link_usable (visits_link hv)).1
      rw [settleVisit_apply] at hdone
      split at hdone
      · exact ih v.part v.told s₁ s₂ hs₁ hpart (fun x hx => htrail x (hsub hx)) hdone
      · rename_i hunseen
        cases hdone
        exact hs₁.shut_of_unseen v.part v.trail hpart htrail (by simpa using hunseen)

end Settle

end Chalkboard.Types
