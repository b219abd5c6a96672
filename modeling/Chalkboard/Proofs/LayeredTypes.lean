import Chalkboard.Proofs.NeatTypes
import Chalkboard.Proofs.SeenTargets

/-! Types that can be settled in any order. They lie in layers, and an open target stands for a type of its
own layer or of a lower one. Where a type comes round to its own layer, no open target is reached that it
does not lead to already. So once all that such a type leads to is settled, nothing open lies behind it any
more, and no way through what is settled comes back to a type that is only half done. -/

namespace Chalkboard.Types

open Effects Relation

def Node.isArray : Node → Bool
  | .array .. => true
  | _ => false

namespace Graph

/-- The types that a type leads to, looked for to a given depth. -/
def behind (g : Graph) : Nat → TypeId → List TypeId
  | 0, _ => []
  | depth + 1, t => t :: (g.node t).links.flatMap (g.behind depth)

/-- The open targets that a type leads to, where all that it leads to was made before it. -/
def opens (g : Graph) (t : TypeId) : List TypeId :=
  (g.behind (t + 1) t).filter fun o => (g.node o).isOpen

end Graph

/-- The type that the name of an open target stands for. -/
def meaning (s : Types) (o : TypeId) : Option TypeId :=
  match s.graph.node o with
  | .pointer (.deferred side name) =>
    match (s.home side).types.lookup name with
    | some (.settled u) => some u
    | _ => none
  | _ => none

/-- Types that lie in layers. -/
structure Layered (s : Types) (layer : TypeId → Nat) : Prop where
  /-- A type leads to no higher layer, and into a lower one only through a name. -/
  down : ∀ t < s.graph.nodes.size, ∀ u ∈ (s.graph.node t).links,
    layer u ≤ layer t ∧ (s.Registered u ∨ layer u = layer t)
  target : ∀ o < s.graph.nodes.size, ∀ u ∈ s.meaning o, layer u ≤ layer o
  /-- A type that comes round to its own layer leads to every open target that it would come to. -/
  round : ∀ t < s.graph.nodes.size, s.Registered t →
    (∃ o ∈ s.graph.opens t, ∃ u ∈ s.meaning o, layer u = layer t) →
      ∀ o ∈ s.graph.opens t, ∀ u ∈ s.meaning o, s.graph.opens u ⊆ s.graph.opens t
  /-- A pointer to an array leads to nothing open. -/
  array : ∀ t < s.graph.nodes.size, (s.graph.node t).isPointer = true →
    ∀ u ∈ (s.graph.node t).links, (s.graph.node u).isArray = true → s.graph.opens u = []

instance (s : Types) (t : TypeId) : Decidable (s.Registered t) :=
  decidable_of_iff (∃ entry ∈ s.registry.types, entry.2 = .settled t)
    ⟨fun ⟨(name, _), hmem, heq⟩ => ⟨name, heq ▸ hmem⟩, fun ⟨_, hmem⟩ => ⟨_, hmem, rfl⟩⟩

instance (s : Types) (layer : TypeId → Nat) : Decidable (s.Layered layer) :=
  decidable_of_iff (_ ∧ _ ∧ _ ∧ _)
    ⟨fun ⟨hdown, htarget, hround, harray⟩ => Layered.mk hdown htarget hround harray,
      fun h => ⟨h.down, h.target, h.round, h.array⟩⟩

section Behind

variable {s : Types} {t u o : TypeId}

theorem means_iff : s.Means o u ↔ u ∈ s.meaning o := by
  unfold Means meaning
  rcases s.graph.node o with _ | _ | _ | _ | ⟨_ | ⟨side, name⟩⟩ | _ | _ | _ | _
  case pointer.deferred =>
    dsimp only
    rcases hlookup : (s.home side).types.lookup name with _ | ⟨w | _⟩
    all_goals simp [hlookup]
  all_goals simp

theorem Means.isOpen (h : s.Means o u) : (s.graph.node o).isOpen = true := by
  obtain ⟨side, name, hnode, -⟩ := h
  rw [hnode]
  rfl

theorem Neat.means_registered (hs : s.Neat) (h : s.Means o u) : s.Registered u := by
  obtain ⟨side, name, -, hlookup⟩ := h
  exact registered_of_home hs.standby hlookup

theorem Neat.named_not_array (hs : s.Neat) (h : s.Registered t) :
    (s.graph.node t).isArray = false := by
  have hmade := (hs.named t h).2
  revert hmade
  cases s.graph.node t <;> simp [Node.isArray, Node.isMade]

theorem Neat.mem_behind (hs : s.Neat) {depth : Nat} (ht : t < depth) :
    u ∈ s.graph.behind depth t ↔ s.graph.Reaches t u := by
  induction depth generalizing t with
  | zero => exact absurd ht (Nat.not_lt_zero t)
  | succ depth ih =>
    have hbelow (w : TypeId) (hw : w ∈ (s.graph.node t).links) : w < depth :=
      Nat.lt_of_lt_of_le (hs.down t w hw) (Nat.le_of_lt_succ ht)
    rw [Graph.behind, List.mem_cons, List.mem_flatMap]
    constructor
    · rintro (rfl | ⟨w, hw, hu⟩)
      · exact .refl
      · exact .head hw ((ih (hbelow w hw)).1 hu)
    · intro hreach
      rcases ReflTransGen.cases_head hreach with rfl | ⟨w, hw, hwu⟩
      · exact .inl rfl
      · exact .inr ⟨w, hw, (ih (hbelow w hw)).2 hwu⟩

theorem Neat.mem_opens (hs : s.Neat) :
    o ∈ s.graph.opens t ↔ s.graph.Reaches t o ∧ (s.graph.node o).isOpen = true := by
  rw [Graph.opens, List.mem_filter, hs.mem_behind (Nat.lt_succ_self t)]

theorem Neat.opens_subset (hs : s.Neat) (h : s.graph.Reaches t u) :
    s.graph.opens u ⊆ s.graph.opens t := by
  intro o ho
  obtain ⟨hreach, hopen⟩ := hs.mem_opens.1 ho
  exact hs.mem_opens.2 ⟨h.trans hreach, hopen⟩

theorem Graph.links_of_isOpen {g : Graph} (h : (g.node o).isOpen = true) : (g.node o).links = [] := by
  revert h
  rcases g.node o with _ | _ | _ | _ | ⟨_ | _⟩ | _ | _ | _ | _
  case pointer.deferred => exact fun _ => rfl
  all_goals exact fun h => nomatch h

theorem Graph.eq_of_reaches_open {g : Graph} (hopen : (g.node o).isOpen = true) (h : g.Reaches o u) :
    u = o := by
  rcases ReflTransGen.cases_head h with rfl | ⟨w, hw, -⟩
  · rfl
  · rw [Graph.links_of_isOpen hopen] at hw
    cases hw

end Behind

section Closed

variable {s₀ s s' : Types} {t u o : TypeId}

theorem Extends.node_eq (h : Extends s s') (ht : t < s.graph.nodes.size)
    (hopen : (s.graph.node t).isOpen = false) : s'.graph.node t = s.graph.node t := by
  rcases h.node ht with hsame | ⟨u, hmeans, -⟩
  · exact hsame
  · rw [hmeans.isOpen] at hopen
    cases hopen

theorem Extends.node_settled (h : Extends s s') (ht : t < s.graph.nodes.size)
    (hopen : (s.graph.node t).isOpen = true) (hopen' : (s'.graph.node t).isOpen = false) :
    ∃ u, s.Means t u ∧ s'.graph.node t = .pointer (.settled u) := by
  rcases h.node ht with hsame | hmeans
  · rw [hsame, hopen] at hopen'
    cases hopen'
  · exact hmeans

theorem Extends.isOpen (h : Extends s s') (ht : t < s.graph.nodes.size)
    (hopen : (s.graph.node t).isOpen = false) : (s'.graph.node t).isOpen = false := by
  rw [h.node_eq ht hopen, hopen]

variable {g : Graph} {trail : List TypeId}

theorem Graph.closed_of_inside {P : TypeId → Prop}
    (h : ∀ t, P t → t < g.nodes.size ∧ (g.node t).isOpen = false ∧ ∀ u ∈ (g.node t).links, P u)
    (ht : P t) : g.Closed t := by
  intro u hreach
  have hu : P u := by
    induction hreach with
    | refl => exact ht
    | tail _ hlink ih => exact (h _ ih).2.2 _ hlink
  exact ⟨(h u hu).1, (h u hu).2.1⟩

theorem Extends.closed (h : Extends s s') (hclosed : s.graph.Closed t) : s'.graph.Closed t := by
  refine Graph.closed_of_inside (P := s.graph.Reaches t) (fun u hu => ?_) .refl
  obtain ⟨hlt, hopen⟩ := hclosed u hu
  rw [h.node_eq hlt hopen]
  exact ⟨Nat.lt_of_lt_of_le hlt h.size, hopen, fun w hw => hu.tail hw⟩

theorem Neat.closed_of_opens (hs₀ : s₀.Neat) (h : Extends s₀ s) (ht : t < s₀.graph.nodes.size)
    (hnone : s₀.graph.opens t = []) : s.graph.Closed t := by
  refine Graph.closed_of_inside (P := s₀.graph.Reaches t) (fun u hu => ?_) .refl
  have hlt : u < s₀.graph.nodes.size := Nat.lt_of_le_of_lt (hs₀.le_of_reaches hu) ht
  have hopen : (s₀.graph.node u).isOpen = false := by
    by_contra hopen
    have hmem := hs₀.mem_opens.2 ⟨hu, by simpa using hopen⟩
    rw [hnone] at hmem
    cases hmem
  rw [h.node_eq hlt hopen]
  exact ⟨Nat.lt_of_lt_of_le hlt h.size, hopen, fun w hw => hu.tail hw⟩

theorem Graph.Closed.unseen (h : g.Closed t) :
    g.hasDeferrals t trail = false := by
  refine Bool.eq_false_iff.2 fun hseen => ?_
  unfold Graph.hasDeferrals at hseen
  obtain ⟨o, hreach, hopen⟩ := Graph.reaches_of_seen hseen
  rw [(h o hreach).2] at hopen
  cases hopen

/-- What a type led to from the start is seen behind it as long as it is open. The way goes down, so a
trail of types further up does not stop it. -/
theorem Neat.seen_of_reaches (hs₀ : s₀.Neat) (h : Extends s₀ s) (ordered : s.graph.Ordered)
    (ht : t < s₀.graph.nodes.size) (hreach : s₀.graph.Reaches t o)
    (hopen : (s.graph.node o).isOpen = true) (htrail : ∀ x ∈ trail, t < x) :
    s.graph.hasDeferrals t trail = true := by
  induction hreach using ReflTransGen.head_induction_on generalizing trail with
  | refl =>
    rw [ordered.hasDeferrals_eq]
    revert hopen
    rcases s.graph.node o with _ | _ | _ | _ | ⟨_ | _⟩ | _ | _ | _ | _
    case pointer.deferred => exact fun _ => rfl
    all_goals exact fun h => nomatch h
  | head hlink _ ih =>
    rename_i t u _
    have hlt := hs₀.down t u hlink
    have hplain : (s₀.graph.node t).isOpen = false := by
      by_contra hwas
      rw [Graph.links_of_isOpen (by simpa using hwas)] at hlink
      cases hlink
    refine ordered.seen_of_link (by rwa [h.node_eq ht hplain]) ?_ (ih (Nat.lt_trans hlt ht) fun x hx => ?_)
    · exact fun hmem => Nat.lt_irrefl t (htrail t hmem)
    · rcases List.mem_cons.1 hx with rfl | hx
      · exact hlt
      · exact Nat.lt_trans hlt (htrail x hx)

end Closed

section Steady

variable {s₀ s s' : Types} {layer : TypeId → Nat} {t u v w o : TypeId}

/-- Every open target that a type led to from the start is settled. -/
def Done (s₀ s : Types) (t : TypeId) : Prop := ∀ o ∈ s₀.graph.opens t, (s.graph.node o).isOpen = false

/-- Of the targets that a type led to from the start, those that are settled are closed or lead into a lower
layer. -/
def Steady (s₀ : Types) (layer : TypeId → Nat) (s : Types) (t : TypeId) : Prop :=
  ∀ o ∈ s₀.graph.opens t, (s.graph.node o).isOpen = false → ∀ u, s₀.Means o u →
    s.graph.Closed u ∨ layer u < layer t

theorem Neat.done_of_reaches (hs₀ : s₀.Neat) (h : s₀.graph.Reaches t u) (ht : Done s₀ s t) :
    Done s₀ s u := fun o ho => ht o (hs₀.opens_subset h ho)

theorem Layered.le_of_reaches (hl : s₀.Layered layer) (h : s₀.graph.Reaches t u) :
    layer u ≤ layer t := by
  induction h with
  | refl => exact Nat.le_refl _
  | tail _ hlink ih =>
    exact Nat.le_trans (hl.down _ (Graph.lt_size_of_link hlink) _ hlink).1 ih

theorem Layered.target_le (hs₀ : s₀.Neat) (hl : s₀.Layered layer) (ho : o ∈ s₀.graph.opens t)
    (hmeans : s₀.Means o u) : layer u ≤ layer t := by
  obtain ⟨hreach, hopen⟩ := hs₀.mem_opens.1 ho
  refine Nat.le_trans (hl.target o (Graph.lt_size_of_node fun hint => ?_) u (means_iff.1 hmeans))
    (hl.le_of_reaches hreach)
  rw [hint] at hopen
  cases hopen

theorem Layered.closed_of_done (hs₀ : s₀.Neat) (hl : s₀.Layered layer)
    (h : Extends s₀ s) (hname : s₀.Registered t) (hdone : Done s₀ s t) (ho : o ∈ s₀.graph.opens t)
    (hmeans : s₀.Means o u) (hsame : layer u = layer t) : s.graph.Closed u := by
  have ht := (hs₀.named t hname).1
  have hround := hl.round t ht hname ⟨o, ho, u, means_iff.1 hmeans, hsame⟩
  -- behind the targets of the type there is nothing open but what the type led to itself
  refine Graph.closed_of_inside (P := fun w => ∃ o ∈ s₀.graph.opens t, ∃ u, s₀.Means o u ∧
    s₀.graph.Reaches u w) (fun w hw => ?_) ⟨o, ho, u, hmeans, .refl⟩
  obtain ⟨o, ho, u, hmeans, hreach⟩ := hw
  have hname' := hs₀.means_registered hmeans
  have hlt : w < s₀.graph.nodes.size :=
    Nat.lt_of_le_of_lt (hs₀.le_of_reaches hreach) (hs₀.named u hname').1
  refine ⟨Nat.lt_of_lt_of_le hlt h.size, ?_⟩
  by_cases hopen : (s₀.graph.node w).isOpen = true
  · have hw : w ∈ s₀.graph.opens t :=
      hround o ho u (means_iff.1 hmeans) (hs₀.mem_opens.2 ⟨hreach, hopen⟩)
    obtain ⟨u', hmeans', hnode⟩ := h.node_settled hlt hopen (hdone w hw)
    rw [hnode]
    refine ⟨rfl, fun x hx => ?_⟩
    rw [List.mem_singleton.1 hx]
    exact ⟨w, hw, u', hmeans', .refl⟩
  · have hplain : (s₀.graph.node w).isOpen = false := by simpa using hopen
    rw [h.node_eq hlt hplain]
    exact ⟨hplain, fun x hx => ⟨o, ho, u, hmeans, hreach.tail hx⟩⟩

theorem Steady.part (hs₀ : s₀.Neat) (hl : s₀.Layered layer) (h : Steady s₀ layer s v)
    (hbelow : ∀ t, s₀.Registered t → layer t < layer v → Steady s₀ layer s t)
    (hw : w ∈ (s₀.graph.node v).links) : Steady s₀ layer s w := by
  obtain ⟨hle, hname | hsame⟩ := hl.down v (Graph.lt_size_of_link hw) w hw
  · rcases Nat.lt_or_eq_of_le hle with hlt | hsame
    · exact hbelow w hname hlt
    · intro o ho
      rw [hsame]
      exact h o (hs₀.opens_subset (.single hw) ho)
  · intro o ho
    rw [hsame]
    exact h o (hs₀.opens_subset (.single hw) ho)

theorem Steady.later (hs₀ : s₀.Neat) (hl : s₀.Layered layer)
    (h : Extends s₀ s') (hlater : Later s s') (hsteady : Steady s₀ layer s t)
    (hnew : ∀ o ∈ s₀.graph.opens t, (s.graph.node o).isOpen = true → (s'.graph.node o).isOpen = false →
      ∃ w, s₀.Registered w ∧ s₀.graph.Reaches t w ∧ o ∈ s₀.graph.opens w ∧ Done s₀ s' w) :
    Steady s₀ layer s' t := by
  intro o ho hopen' u hmeans
  by_cases hopen : (s.graph.node o).isOpen = true
  · obtain ⟨w, hname, hreach, how, hdone⟩ := hnew o ho hopen hopen'
    have hle := hl.le_of_reaches hreach
    rcases Nat.lt_or_eq_of_le (Layered.target_le hs₀ hl how hmeans) with hlt | hsame
    · exact .inr (Nat.lt_of_lt_of_le hlt hle)
    · exact .inl (hl.closed_of_done hs₀ h hname hdone how hmeans hsame)
  · exact (hsteady o ho (by simpa using hopen) u hmeans).imp hlater.extends.closed id

/-- What settling some parts of a type has come to: they are done, and all that was settled lies behind
them or behind a type with a name in a lower layer that is done as well. -/
structure Settled (s₀ : Types) (layer : TypeId → Nat) (bound : Nat) (parts : List TypeId)
    (s s' : Types) : Prop where
  later : Later s s'
  done : ∀ t ∈ parts, Done s₀ s' t
  only : ∀ o, (s.graph.node o).isOpen = true → (s'.graph.node o).isOpen = false →
    (∃ t ∈ parts, o ∈ s₀.graph.opens t) ∨
      ∃ t, s₀.Registered t ∧ layer t < bound ∧ o ∈ s₀.graph.opens t ∧ Done s₀ s' t

theorem Neat.meet_done (hs₀ : s₀.Neat) (hname : s₀.Registered t) (ho : o ∈ s₀.graph.opens t)
    (hname' : s₀.Registered w) (ho' : o ∈ s₀.graph.opens w) (hdone : Done s₀ s w) :
    ∃ x, s₀.Registered x ∧ s₀.graph.Reaches t x ∧ o ∈ s₀.graph.opens x ∧ Done s₀ s x := by
  obtain ⟨hreach, hopen⟩ := hs₀.mem_opens.1 ho
  rcases hs₀.meet_named hname hreach (hs₀.mem_opens.1 ho').1 with ⟨x, hx, htx, hwx, hxo⟩ | ⟨hunnamed, -⟩
  · exact ⟨x, hx, htx, hs₀.mem_opens.2 ⟨hxo, hopen⟩, hs₀.done_of_reaches hwx hdone⟩
  · exact absurd hname' hunnamed

theorem Settled.steady_below (hs₀ : s₀.Neat) (hl : s₀.Layered layer)
    (hext : Extends s₀ s') {parts : List TypeId}
    (h : Settled s₀ layer (layer v) parts s s') (hparts : ∀ w ∈ parts, w ∈ (s₀.graph.node v).links)
    (hname : s₀.Registered t) (hlt : layer t < layer v) (hsteady : Steady s₀ layer s t) :
    Steady s₀ layer s' t := by
  refine hsteady.later hs₀ hl hext h.later fun o ho hopen hopen' => ?_
  obtain ⟨hreach, hwas⟩ := hs₀.mem_opens.1 ho
  rcases h.only o hopen hopen' with ⟨w, hw, how⟩ | ⟨w, hwname, -, how, hdone⟩
  · obtain ⟨hwo, -⟩ := hs₀.mem_opens.1 how
    rcases hs₀.meet_named hname hreach hwo with ⟨x, hx, htx, hwx, hxo⟩ | ⟨hunnamed, htw⟩
    · exact ⟨x, hx, htx, hs₀.mem_opens.2 ⟨hxo, hwas⟩, hs₀.done_of_reaches hwx (h.done w hw)⟩
    · -- a type that leads to a part without a name leads to the whole, which is in a higher layer
      have hne : t ≠ w := fun heq => hunnamed (heq ▸ hname)
      have hback := hl.le_of_reaches (hs₀.reaches_whole (hparts w hw) hunnamed htw hne)
      exact absurd hlt (Nat.not_lt_of_le hback)
  · exact hs₀.meet_done hname ho hwname how hdone

theorem Settled.steady_part (hs₀ : s₀.Neat) (hl : s₀.Layered layer)
    (hext : Extends s₀ s') {parts : List TypeId}
    (h : Settled s₀ layer (layer v) parts s s') (hparts : ∀ w ∈ parts, w ∈ (s₀.graph.node v).links)
    (ht : t ∈ (s₀.graph.node v).links) (hapart : ∀ w ∈ parts, w = t → s₀.Registered w)
    (hsteady : Steady s₀ layer s t) : Steady s₀ layer s' t := by
  refine hsteady.later hs₀ hl hext h.later fun o ho hopen hopen' => ?_
  obtain ⟨hreach, hwas⟩ := hs₀.mem_opens.1 ho
  rcases h.only o hopen hopen' with ⟨w, hw, how⟩ | ⟨w, hwname, hlt, how, hdone⟩
  · obtain ⟨hwo, -⟩ := hs₀.mem_opens.1 how
    obtain ⟨x, hx, hwx, htx, hxo⟩ := hs₀.shared (hparts w hw) ht (hapart w hw) hwo hreach
    exact ⟨x, hx, htx, hs₀.mem_opens.2 ⟨hxo, hwas⟩, hs₀.done_of_reaches hwx (h.done w hw)⟩
  · obtain ⟨hwo, -⟩ := hs₀.mem_opens.1 how
    rcases hs₀.meet_named hwname hwo hreach with ⟨x, hx, hwx, htx, hxo⟩ | ⟨hunnamed, hwt⟩
    · exact ⟨x, hx, htx, hs₀.mem_opens.2 ⟨hxo, hwas⟩, hs₀.done_of_reaches hwx hdone⟩
    · -- a part without a name is in the layer of the whole
      have hsame := (hl.down v (Graph.lt_size_of_link ht) t ht).2.resolve_left hunnamed
      have hle := hl.le_of_reaches hwt
      rw [hsame] at hle
      exact absurd hlt (Nat.not_lt_of_le hle)

end Steady

section Visits

variable {s : Types} {t : TypeId} {told : Option (List TypeId)}

theorem Graph.visits_parts {g : Graph} (harray : (g.node t).isArray = true → told.isNone = false) :
    (g.visits t told).map (·.part) = (g.node t).links := by
  revert harray
  unfold visits
  rcases g.node t with _ | _ | _ | _ | ⟨_ | _⟩ | _ | ⟨_, fields⟩ | _ | _
  case array =>
    intro harray
    rw [harray rfl]
    rfl
  case tuple =>
    intro _
    dsimp only
    rw [List.map_map]
    rfl
  all_goals exact fun _ => rfl

theorem Graph.visits_trail {g : Graph} {v : Visit} (hv : v ∈ g.visits t told) :
    v.trail = t :: told.getD [] ∧
      (v.told = some (t :: told.getD []) ∨ v.told = none ∧ (g.node t).isPointer = true) := by
  revert hv
  unfold visits
  rcases g.node t with _ | _ | _ | _ | ⟨_ | _⟩ | _ | ⟨_, fields⟩ | _ | _
  case pointer.settled =>
    intro hv
    rw [List.mem_singleton.1 hv]
    exact ⟨rfl, .inr ⟨rfl, rfl⟩⟩
  case synonym =>
    intro hv
    rw [List.mem_singleton.1 hv]
    exact ⟨rfl, .inl rfl⟩
  case array =>
    cases told with
    | none => exact fun hv => nomatch hv
    | some trail =>
      intro hv
      rw [List.mem_singleton.1 hv]
      exact ⟨rfl, .inl rfl⟩
  case tuple =>
    intro hv
    obtain ⟨field, -, rfl⟩ := List.mem_map.1 hv
    exact ⟨rfl, .inl rfl⟩
  all_goals exact fun hv => nomatch hv

theorem settleSelf_stays (hopen : (s.graph.node t).isOpen = false)
    (harray : (s.graph.node t).isArray = true → told.isNone = false) :
    settleSelf t told s = (.ok (), s) := by
  rw [settleSelf_apply]
  revert hopen harray
  rcases s.graph.node t with _ | _ | _ | _ | ⟨_ | _⟩ | _ | _ | _ | _
  case pointer.deferred => exact fun hopen => nomatch hopen
  case array =>
    intro _ harray
    rw [harray rfl]
    rfl
  all_goals exact fun _ _ => rfl

theorem settleFrom_open {u : TypeId} (h : s.Means t u) (depth : Nat) (told : Option (List TypeId)) :
    settleFrom (depth + 1) t told s =
      (.ok (), { s with graph := s.graph.set t (.pointer (.settled u)) }) := by
  obtain ⟨side, name, hnode, hlookup⟩ := h
  rw [settleFrom_succ, bind_apply, settleSelf_apply, hnode]
  dsimp only
  rw [hlookup, Graph.visits, hnode]
  rfl

end Visits

section Completes

variable {s₀ s s' : Types} {layer : TypeId → Nat} {t u v w o : TypeId}

/-- Every open name behind a type with a name is itself the name of a type. -/
def Known (s : Types) : Prop := ∀ t, s.Registered t → ∀ o ∈ s.graph.opens t, ∃ u, s.Means o u

/-- The types that settling a type may come through: those in lower layers, and those in its own that were
made no later. -/
def rounds (s₀ : Types) (layer : TypeId → Nat) (t : TypeId) : Finset TypeId :=
  (Finset.range s₀.graph.nodes.size).filter fun u => layer u < layer t ∨ layer u = layer t ∧ u ≤ t

theorem mem_rounds : u ∈ rounds s₀ layer t ↔
    u < s₀.graph.nodes.size ∧ (layer u < layer t ∨ layer u = layer t ∧ u ≤ t) := by
  rw [rounds, Finset.mem_filter, Finset.mem_range]

theorem card_rounds_lt (ht : t < s₀.graph.nodes.size)
    (h : layer u < layer t ∨ layer u = layer t ∧ u < t) :
    (rounds s₀ layer u).card < (rounds s₀ layer t).card := by
  refine Finset.card_lt_card ⟨fun w hw => ?_, fun hback => ?_⟩
  · obtain ⟨hlt, hw⟩ := mem_rounds.1 hw
    refine mem_rounds.2 ⟨hlt, ?_⟩
    rcases h with hlower | ⟨hsame, hut⟩
    · exact .inl (hw.elim (Nat.lt_trans · hlower) fun hw => hw.1 ▸ hlower)
    · rw [← hsame]
      exact hw.imp id (.imp id fun hwu => Nat.le_trans hwu (Nat.le_of_lt hut))
  · obtain ⟨-, hmem⟩ := mem_rounds.1 (hback (mem_rounds.2 ⟨ht, .inr ⟨rfl, Nat.le_refl t⟩⟩))
    rcases hmem with hlower | ⟨hsame, htu⟩
    · exact h.elim (Nat.lt_asymm hlower) fun h => Nat.ne_of_gt hlower h.1
    · exact h.elim (Nat.ne_of_gt · hsame) fun h => Nat.not_lt_of_le htu h.2

theorem card_rounds_le : (rounds s₀ layer t).card ≤ s₀.graph.nodes.size := by
  have hcard := Finset.card_le_card
    (Finset.filter_subset (fun u => layer u < layer t ∨ layer u = layer t ∧ u ≤ t)
      (Finset.range s₀.graph.nodes.size))
  rwa [Finset.card_range] at hcard

/-- A type that can be settled as things stand. -/
structure Settleable (s₀ : Types) (layer : TypeId → Nat) (s : Types) (t : TypeId) : Prop where
  lt : t < s₀.graph.nodes.size
  ext : Extends s₀ s
  ordered : s.graph.Ordered
  known : ∀ o ∈ s₀.graph.opens t, ∃ u, s₀.Means o u
  steady : Steady s₀ layer s t
  below : ∀ u, s₀.Registered u → layer u < layer t → Steady s₀ layer s u

theorem Later.isOpen (h : Later s s') (hopen : (s.graph.node o).isOpen = false) :
    (s'.graph.node o).isOpen = false := by
  rcases h.settles.node o with hsame | ⟨hwas, -⟩
  · rw [hsame, hopen]
  · rw [hopen] at hwas
    cases hwas

theorem Done.later (hdone : Done s₀ s t) (h : Later s s') : Done s₀ s' t :=
  fun o ho => h.isOpen (hdone o ho)

variable {bound depth : Nat} {parts : List TypeId}

theorem Settled.refl (hdone : ∀ t ∈ parts, Done s₀ s t) :
    Settled s₀ layer bound parts s s := by
  refine ⟨.refl s, hdone, fun o hopen hopen' => ?_⟩
  rw [hopen] at hopen'
  cases hopen'

theorem Settled.snoc {bound' : Nat} {s₁ : Types}
    (h : Settled s₀ layer bound parts s s₁) (h' : Settled s₀ layer bound' [t] s₁ s')
    (hle : bound' ≤ bound) : Settled s₀ layer bound (parts ++ [t]) s s' := by
  refine ⟨h.later.trans h'.later, fun u hu => ?_, fun o hopen hopen' => ?_⟩
  · rcases List.mem_append.1 hu with hu | hu
    · exact (h.done u hu).later h'.later
    · exact h'.done u hu
  · by_cases hbetween : (s₁.graph.node o).isOpen = true
    · rcases h'.only o hbetween hopen' with ⟨u, hu, ho⟩ | ⟨u, hu, hlt, hrest⟩
      · exact .inl ⟨u, List.mem_append_right _ hu, ho⟩
      · exact .inr ⟨u, hu, Nat.lt_of_lt_of_le hlt hle, hrest⟩
    · rcases h.only o hopen (by simpa using hbetween) with ⟨u, hu, ho⟩ | ⟨u, hu, hlt, ho, hdone⟩
      · exact .inl ⟨u, List.mem_append_left _ hu, ho⟩
      · exact .inr ⟨u, hu, hlt, ho, hdone.later h'.later⟩

/-- To a given depth, every type is settled well that is not too far up. -/
def SettlesWithin (s₀ : Types) (layer : TypeId → Nat) (depth : Nat) : Prop :=
  ∀ t told s, Settleable s₀ layer s t → (rounds s₀ layer t).card ≤ depth →
    (∀ x ∈ told.getD [], t < x) → ((s₀.graph.node t).isArray = true → told.isNone = false) →
    ∃ s', settleFrom depth t told s = (.ok (), s') ∧ Settled s₀ layer (layer t) [t] s s'

theorem settleVisit_completes (hs₀ : s₀.Neat) (hcalls : SettlesWithin s₀ layer depth)
    {visit : Visit} (h : Settleable s₀ layer s visit.part)
    (hdepth : (rounds s₀ layer visit.part).card ≤ depth) (htrail : ∀ x ∈ visit.trail, visit.part < x)
    (htold : visit.told.getD [] ⊆ visit.trail)
    (harray : (s₀.graph.node visit.part).isArray = true →
      visit.told.isNone = false ∨ s₀.graph.opens visit.part = []) :
    ∃ s', settleVisit visit depth s = (.ok (), s') ∧
      Settled s₀ layer (layer visit.part) [visit.part] s s' := by
  rw [settleVisit_apply]
  by_cases hseen : s.graph.hasDeferrals visit.part visit.trail = true
  · rw [if_pos hseen]
    refine hcalls visit.part visit.told s h hdepth (fun x hx => htrail x (htold hx)) fun hisArray => ?_
    refine (harray hisArray).resolve_right fun hnone => ?_
    rw [(hs₀.closed_of_opens h.ext h.lt hnone).unseen] at hseen
    cases hseen
  · rw [if_neg hseen]
    have hdone : Done s₀ s visit.part := by
      intro o ho
      by_contra hopen
      exact hseen (hs₀.seen_of_reaches h.ext h.ordered h.lt (hs₀.mem_opens.1 ho).1
        (by simpa using hopen) htrail)
    refine ⟨s, rfl, .refl fun u hu => ?_⟩
    rw [List.mem_singleton.1 hu]
    exact hdone

theorem Settled.settleable (hs₀ : s₀.Neat) (hl : s₀.Layered layer) (hv : Settleable s₀ layer s v)
    (h : Settled s₀ layer (layer v) parts s s')
    (hparts : ∀ w ∈ parts, w ∈ (s₀.graph.node v).links) (hw : w ∈ (s₀.graph.node v).links)
    (hapart : ∀ x ∈ parts, x = w → s₀.Registered x) : Settleable s₀ layer s' w := by
  have hext := hv.ext.trans h.later.extends
  refine ⟨Nat.lt_trans (hs₀.down v w hw) hv.lt, hext, h.later.settles.ordered hv.ordered,
    fun o ho => hv.known o (hs₀.opens_subset (.single hw) ho), ?_, fun u hu hlt => ?_⟩
  · exact h.steady_part hs₀ hl hext hparts hw hapart (hv.steady.part hs₀ hl hv.below hw)
  · have hlt := Nat.lt_of_lt_of_le hlt (hl.down v hv.lt w hw).1
    exact h.steady_below hs₀ hl hext hparts hu hlt (hv.below u hu hlt)

theorem visits_complete (hs₀ : s₀.Neat) (hl : s₀.Layered layer)
    (hcalls : SettlesWithin s₀ layer depth) (hv : Settleable s₀ layer s v)
    (hdepth : (rounds s₀ layer v).card ≤ depth + 1) (visits : List Visit)
    (hlinks : visits.map (·.part) = (s₀.graph.node v).links)
    (hvisits : ∀ visit ∈ visits, (∀ x ∈ visit.trail, visit.part < x) ∧
      visit.told.getD [] ⊆ visit.trail ∧ ((s₀.graph.node visit.part).isArray = true →
        visit.told.isNone = false ∨ s₀.graph.opens visit.part = [])) :
    ∃ s', inTurn settleVisit visits depth s = (.ok (), s') ∧
      Settled s₀ layer (layer v) (s₀.graph.node v).links s s' := by
  have hrest (rest before : List Visit) (hsplit : before ++ rest = visits) (s₁ : Types)
      (h : Settled s₀ layer (layer v) (before.map (·.part)) s s₁) :
      ∃ s', inTurn settleVisit rest depth s₁ = (.ok (), s') ∧
        Settled s₀ layer (layer v) (visits.map (·.part)) s s' := by
    induction rest generalizing before s₁ with
    | nil =>
      rw [List.append_nil] at hsplit
      exact ⟨s₁, rfl, hsplit ▸ h⟩
    | cons visit rest ih =>
      have hmem : visit ∈ visits := by
        rw [← hsplit]
        exact List.mem_append_right _ List.mem_cons_self
      have hpart {w : Visit} (hw : w ∈ visits) : w.part ∈ (s₀.graph.node v).links := by
        rw [← hlinks]
        exact List.mem_map_of_mem hw
      have hbefore (w : TypeId) (hw : w ∈ before.map (·.part)) : w ∈ (s₀.graph.node v).links := by
        obtain ⟨x, hx, rfl⟩ := List.mem_map.1 hw
        exact hpart (hsplit ▸ List.mem_append_left _ hx)
      have hapart (x : TypeId) (hx : x ∈ before.map (·.part)) : x = visit.part → s₀.Registered x := by
        have hall := hs₀.apart v
        rw [← hlinks, ← hsplit, List.map_append] at hall
        exact (List.pairwise_append.1 hall).2.2 x hx visit.part List.mem_cons_self
      have hnext := h.settleable hs₀ hl hv hbefore (hpart hmem) hapart
      have hle := (hl.down v hv.lt _ (hpart hmem)).1
      have hdown := hs₀.down v _ (hpart hmem)
      obtain ⟨htrail, htold, harray⟩ := hvisits visit hmem
      have hfew : (rounds s₀ layer visit.part).card ≤ depth := by
        refine Nat.le_of_lt_succ (Nat.lt_of_lt_of_le (card_rounds_lt hv.lt ?_) hdepth)
        exact (Nat.lt_or_eq_of_le hle).imp id fun hsame => ⟨hsame, hdown⟩
      obtain ⟨s₂, hvisit, hdone⟩ := settleVisit_completes hs₀ hcalls hnext hfew htrail htold harray
      have hmore := h.snoc hdone hle
      rw [← List.map_singleton, ← List.map_append] at hmore
      obtain ⟨s', hfinal, hsettled⟩ := ih (before ++ [visit]) (by rw [← hsplit]; simp) s₂ hmore
      refine ⟨s', ?_, hsettled⟩
      rw [inTurn_cons, bind_apply, hvisit]
      exact hfinal
  obtain ⟨s', hdone, hsettled⟩ := hrest visits [] rfl s (.refl fun t ht => absurd ht List.not_mem_nil)
  exact ⟨s', hdone, hlinks ▸ hsettled⟩

theorem settleFrom_open_settled (hs₀ : s₀.Neat) (h : Settleable s₀ layer s t)
    (hopen : (s.graph.node t).isOpen = true) (depth : Nat) (told : Option (List TypeId)) :
    ∃ s', settleFrom (depth + 1) t told s = (.ok (), s') ∧ Settled s₀ layer (layer t) [t] s s' := by
  have hwas : (s₀.graph.node t).isOpen = true := by
    by_contra hplain
    rw [h.ext.isOpen h.lt (by simpa using hplain)] at hopen
    cases hopen
  have hmem : t ∈ s₀.graph.opens t := hs₀.mem_opens.2 ⟨.refl, hwas⟩
  obtain ⟨u, hmeans⟩ := h.known t hmem
  have hsame : s.graph.node t = s₀.graph.node t := by
    rcases h.ext.node h.lt with hsame | ⟨w, -, hnode⟩
    · exact hsame
    · rw [hnode] at hopen
      cases hopen
  have hdone := settleFrom_open ((h.ext.means hsame).2 hmeans) depth told
  have hlater := settleFrom_later (depth + 1) t told s
  rw [hdone] at hlater
  have hlt := Nat.lt_of_lt_of_le h.lt h.ext.size
  refine ⟨_, hdone, hlater, fun w hw o ho => ?_, fun o ho ho' => .inl ⟨t, List.mem_singleton_self t, ?_⟩⟩
  · rw [List.mem_singleton.1 hw] at ho
    rw [Graph.eq_of_reaches_open hwas (hs₀.mem_opens.1 ho).1, Graph.node_set_self hlt]
    rfl
  · by_cases heq : o = t
    · rw [heq]
      exact hmem
    · rw [Graph.node_set_ne heq, ho] at ho'
      cases ho'

theorem settled_target_completes (hs₀ : s₀.Neat) (hknown : s₀.Known)
    (hcalls : SettlesWithin s₀ layer depth) (h : Settleable s₀ layer s t)
    (hdepth : (rounds s₀ layer t).card ≤ depth + 1) (hwas : (s₀.graph.node t).isOpen = true)
    (hopen : (s.graph.node t).isOpen = false) (told : Option (List TypeId)) :
    ∃ s', settleFrom (depth + 1) t told s = (.ok (), s') ∧ Settled s₀ layer (layer t) [t] s s' := by
  obtain ⟨u, hmeans, hnode⟩ := h.ext.node_settled h.lt hwas hopen
  have hmem : t ∈ s₀.graph.opens t := hs₀.mem_opens.2 ⟨.refl, hwas⟩
  have hname := hs₀.means_registered hmeans
  have hself : settleSelf t told s = (.ok (), s) :=
    settleSelf_stays hopen fun harray => by rw [hnode] at harray; cases harray
  have hvisits : s.graph.visits t told = [⟨u, t :: told.getD [], none⟩] := by
    rw [Graph.visits, hnode]
  have hdone {s' : Types} (hlater : Later s s') : ∀ w ∈ [t], Done s₀ s' w := by
    intro w hw o ho
    rw [List.mem_singleton.1 hw] at ho
    rw [Graph.eq_of_reaches_open hwas (hs₀.mem_opens.1 ho).1]
    exact hlater.isOpen hopen
  rw [settleFrom_succ, bind_apply, hself, hvisits]
  dsimp only
  rw [inTurn_one, settleVisit_apply]
  dsimp only
  by_cases hseen : s.graph.hasDeferrals u (t :: told.getD []) = true
  · rw [if_pos hseen]
    have hlower : layer u < layer t := by
      refine (h.steady t hmem hopen u hmeans).resolve_left fun hclosed => ?_
      rw [hclosed.unseen] at hseen
      cases hseen
    have hu : Settleable s₀ layer s u :=
      ⟨(hs₀.named u hname).1, h.ext, h.ordered, hknown u hname, h.below u hname hlower,
        fun w hw hlt => h.below w hw (Nat.lt_trans hlt hlower)⟩
    have hfew := Nat.le_of_lt_succ (Nat.lt_of_lt_of_le (card_rounds_lt h.lt (.inl hlower)) hdepth)
    obtain ⟨s', hcall, hsettled⟩ := hcalls u none s hu hfew (fun x hx => by cases hx) fun harray => by
      rw [hs₀.named_not_array hname] at harray
      cases harray
    refine ⟨s', hcall, hsettled.later, hdone hsettled.later, fun o ho ho' => .inr ?_⟩
    rcases hsettled.only o ho ho' with ⟨w, hw, how⟩ | ⟨w, hw, hlt, hrest⟩
    · rw [List.mem_singleton.1 hw] at how
      exact ⟨u, hname, hlower, how, hsettled.done u (List.mem_singleton_self u)⟩
    · exact ⟨w, hw, Nat.lt_trans hlt hlower, hrest⟩
  · rw [if_neg hseen]
    exact ⟨s, rfl, .refl (hdone (.refl s))⟩

theorem settlesWithin (hs₀ : s₀.Neat) (hl : s₀.Layered layer) (hknown : s₀.Known) (depth : Nat) :
    SettlesWithin s₀ layer depth := by
  induction depth with
  | zero =>
    intro t told s h hdepth
    have hmem : t ∈ rounds s₀ layer t := mem_rounds.2 ⟨h.lt, .inr ⟨rfl, Nat.le_refl t⟩⟩
    rw [Finset.card_eq_zero.1 (Nat.le_zero.1 hdepth)] at hmem
    exact absurd hmem (Finset.notMem_empty t)
  | succ depth ih =>
    intro t told s h hdepth htold harray
    by_cases hopen : (s.graph.node t).isOpen = true
    · exact settleFrom_open_settled hs₀ h hopen depth told
    have hopen : (s.graph.node t).isOpen = false := by simpa using hopen
    by_cases hwas : (s₀.graph.node t).isOpen = true
    · exact settled_target_completes hs₀ hknown ih h hdepth hwas hopen told
    have hplain : (s₀.graph.node t).isOpen = false := by simpa using hwas
    have hnode := h.ext.node_eq h.lt hplain
    rw [← hnode] at harray
    rw [settleFrom_succ, bind_apply, settleSelf_stays hopen harray]
    have hvisits (visit : Visit) (hvisit : visit ∈ s.graph.visits t told) :
        (∀ x ∈ visit.trail, visit.part < x) ∧ visit.told.getD [] ⊆ visit.trail ∧
          ((s₀.graph.node visit.part).isArray = true →
            visit.told.isNone = false ∨ s₀.graph.opens visit.part = []) := by
      have hlink := visits_link hvisit
      rw [hnode] at hlink
      obtain ⟨htrail, htold'⟩ := Graph.visits_trail hvisit
      refine ⟨fun x hx => ?_, Graph.visits_told hvisit, fun hisArray => ?_⟩
      · rw [htrail] at hx
        have hdown := hs₀.down t _ hlink
        rcases List.mem_cons.1 hx with rfl | hx
        · exact hdown
        · exact Nat.lt_trans hdown (htold x hx)
      · rcases htold' with hsome | ⟨-, hpointer⟩
        · exact .inl (by rw [hsome]; rfl)
        · rw [hnode] at hpointer
          exact .inr (hl.array t h.lt hpointer _ hlink hisArray)
    obtain ⟨s', hdone, hsettled⟩ := visits_complete hs₀ hl ih h hdepth (s.graph.visits t told)
      (by rw [Graph.visits_parts harray, hnode]) hvisits
    refine ⟨s', hdone, hsettled.later, fun u hu o ho => ?_, fun o ho ho' => ?_⟩
    · rw [List.mem_singleton.1 hu] at ho
      obtain ⟨hreach, hwas'⟩ := hs₀.mem_opens.1 ho
      rcases ReflTransGen.cases_head hreach with rfl | ⟨w, hw, hwo⟩
      · exact absurd hwas' hwas
      · exact hsettled.done w hw o (hs₀.mem_opens.2 ⟨hwo, hwas'⟩)
    · refine (hsettled.only o ho ho').imp ?_ id
      rintro ⟨w, hw, how⟩
      exact ⟨t, List.mem_singleton_self t, hs₀.opens_subset (.single hw) how⟩

/-- All types with names are steady: as things stand, each of them can be settled. -/
structure Calm (s₀ : Types) (layer : TypeId → Nat) (s : Types) : Prop where
  ext : Extends s₀ s
  ordered : s.graph.Ordered
  steady : ∀ t, s₀.Registered t → Steady s₀ layer s t

theorem Calm.settle_named (hs₀ : s₀.Neat) (hl : s₀.Layered layer) (hknown : s₀.Known)
    (h : Calm s₀ layer s) (hname : s₀.Registered t) (hdepth : s₀.graph.nodes.size ≤ depth) :
    ∃ s', settleFrom depth t none s = (.ok (), s') ∧ Calm s₀ layer s' := by
  have hsettleable : Settleable s₀ layer s t :=
    ⟨(hs₀.named t hname).1, h.ext, h.ordered, hknown t hname, h.steady t hname, fun u hu _ => h.steady u hu⟩
  obtain ⟨s', hdone, hsettled⟩ := settlesWithin hs₀ hl hknown depth t none s hsettleable
    (Nat.le_trans card_rounds_le hdepth) (fun x hx => by cases hx) fun harray => by
      rw [hs₀.named_not_array hname] at harray
      cases harray
  have hext := h.ext.trans hsettled.later.extends
  refine ⟨s', hdone, hext, hsettled.later.settles.ordered h.ordered, fun u hu => ?_⟩
  refine (h.steady u hu).later hs₀ hl hext hsettled.later fun o ho hopen hopen' => ?_
  rcases hsettled.only o hopen hopen' with ⟨w, hw, how⟩ | ⟨w, hwname, -, how, hwdone⟩
  · rw [List.mem_singleton.1 hw] at how
    exact hs₀.meet_done hu ho hname how (hsettled.done t (List.mem_singleton_self t))
  · exact hs₀.meet_done hu ho hwname how hwdone

theorem Calm.settleAll (hs₀ : s₀.Neat) (hl : s₀.Layered layer) (hknown : s₀.Known)
    (hsize : s₀.graph.nodes.size ≤ settleDepth) (h : Calm s₀ layer s) :
    ∃ s', Types.settleAll s = (.ok (), s') := by
  have hentries (entries : List (String × Entry)) (hsub : entries ⊆ s₀.registry.types) (s : Types)
      (h : Calm s₀ layer s) : ∃ s', inTurn settleEntry entries settleDepth s = (.ok (), s') := by
    induction entries generalizing s with
    | nil => exact ⟨s, rfl⟩
    | cons entry rest ih =>
      obtain ⟨hentry, hrest⟩ := List.cons_subset.1 hsub
      obtain ⟨t, heq⟩ := hs₀.entries entry hentry
      obtain ⟨name, _⟩ := entry
      obtain rfl := heq
      rw [inTurn_cons, bind_apply, settleEntry_settled, settleVisit_apply]
      dsimp only
      by_cases hseen : s.graph.hasDeferrals t [] = true
      · obtain ⟨s', hdone, hcalm⟩ := h.settle_named hs₀ hl hknown ⟨name, hentry⟩ hsize
        rw [if_pos hseen, hdone]
        exact ih hrest s' hcalm
      · rw [if_neg hseen]
        exact ih hrest s h
  rw [Types.settleAll, settleAllWithin_apply]
  exact hentries s.registry.types (by rw [h.ext.registry]; exact List.Subset.refl _) s h

end Completes

end Chalkboard.Types
