import Chalkboard.Proofs.SettleCalls
import Mathlib.Logic.Relation

/-! When settling comes to an end. It always goes into the first part behind which it sees an open
target. If from some type on that way leads back to the type, with no target settled meanwhile, the calls
nest without end; and this is the only reason for which they do. -/

namespace Chalkboard.Types

open Effects Relation

def Node.isOpen : Node → Bool
  | .pointer (.deferred ..) => true
  | _ => false

namespace Graph

variable {g g' g'' : Graph} {t u : TypeId} {n : Node}

theorem size_set : (g.set t n).nodes.size = g.nodes.size := Array.size_setIfInBounds

theorem node_set_self (ht : t < g.nodes.size) : (g.set t n).node t = n := by
  rw [node, set, Array.getD_eq_getD_getElem?, Array.getElem?_setIfInBounds_self_of_lt ht,
    Option.getD_some]

theorem node_set_ne (h : u ≠ t) : (g.set t n).node u = g.node u := by
  rw [node, set, Array.getD_eq_getD_getElem?, Array.getElem?_setIfInBounds_ne h.symm, node,
    Array.getD_eq_getD_getElem?]

theorem ext_node (hsize : g'.nodes.size = g.nodes.size) (h : ∀ t, g'.node t = g.node t) : g' = g := by
  obtain ⟨nodes⟩ := g
  obtain ⟨nodes'⟩ := g'
  congr 1
  refine Array.ext hsize fun t ht' ht => ?_
  have := h t
  simpa [node, ht, ht'] using this

def openTargets (g : Graph) : Finset TypeId :=
  (Finset.range g.nodes.size).filter fun t => (g.node t).isOpen

theorem mem_openTargets : t ∈ g.openTargets ↔ (g.node t).isOpen = true := by
  rw [openTargets, Finset.mem_filter, Finset.mem_range]
  refine ⟨And.right, fun h => ⟨lt_size_of_node fun hint => ?_, h⟩⟩
  rw [hint] at h
  cases h

/-- Some open targets have been settled; all else is the same. -/
structure Settles (g g' : Graph) : Prop where
  size : g'.nodes.size = g.nodes.size
  node (t : TypeId) : g'.node t = g.node t ∨
    (g.node t).isOpen ∧ ∃ target, g'.node t = .pointer (.settled target)

theorem Settles.refl (g : Graph) : Settles g g := ⟨rfl, fun _ => .inl rfl⟩

theorem Settles.trans (h : Settles g g') (h' : Settles g' g'') : Settles g g'' := by
  refine ⟨h'.size.trans h.size, fun t => ?_⟩
  rcases h'.node t with hsame' | ⟨hopen', hnode'⟩
  · rw [hsame']
    exact h.node t
  · rcases h.node t with hsame | ⟨hopen, target, hnode⟩
    · exact .inr ⟨hsame ▸ hopen', hnode'⟩
    · rw [hnode] at hopen'
      cases hopen'

theorem Settles.openTargets_subset (h : Settles g g') : g'.openTargets ⊆ g.openTargets := by
  intro t ht
  rw [mem_openTargets] at ht ⊢
  rcases h.node t with hsame | ⟨hopen, -⟩
  · rwa [← hsame]
  · exact hopen

theorem Settles.eq_of_openTargets (h : Settles g g') (hopen : g'.openTargets = g.openTargets) :
    g' = g := by
  refine ext_node h.size fun t => ?_
  rcases h.node t with hsame | ⟨hwas, target, hnode⟩
  · exact hsame
  · have ht : t ∈ g.openTargets := mem_openTargets.2 hwas
    rw [← hopen, mem_openTargets, hnode] at ht
    cases ht

theorem Settles.antisymm (h : Settles g g') (h' : Settles g' g) : g' = g :=
  h.eq_of_openTargets (h.openTargets_subset.antisymm h'.openTargets_subset)

theorem Settles.ordered (h : Settles g g') (ordered : g.Ordered) : g'.Ordered := by
  intro t u hu
  rcases h.node t with hsame | ⟨-, target, hnode⟩
  · exact ordered t u (hsame ▸ hu)
  · rw [hnode] at hu
    cases hu

variable {name : String} {side : Side}

theorem settles_set (hnode : g.node t = .pointer (.deferred side name))
    (target : TypeId) : Settles g (g.set t (.pointer (.settled target))) := by
  refine ⟨size_set, fun u => ?_⟩
  by_cases h : u = t
  · subst h
    refine .inr ⟨by rw [hnode]; rfl, target, node_set_self (lt_size_of_node ?_)⟩
    rw [hnode]
    simp
  · exact .inl (node_set_ne h)

theorem openTargets_set
    (hnode : g.node t = .pointer (.deferred side name)) (target : TypeId) :
    (g.set t (.pointer (.settled target))).openTargets ⊂ g.openTargets := by
  refine ⟨(settles_set hnode target).openTargets_subset, fun hback => ?_⟩
  have hlt : t < g.nodes.size := lt_size_of_node (by rw [hnode]; simp)
  have ht := hback (mem_openTargets.2 (by rw [hnode]; rfl))
  rw [mem_openTargets, node_set_self hlt] at ht
  cases ht

end Graph

/-- Some open targets have been settled in the graph, each as its name says; the names are the same. -/
structure Later (s s' : Types) : Prop where
  settles : s.graph.Settles s'.graph
  rest : s' = { s with graph := s'.graph }
  named {t u : TypeId} {side : Side} {name : String}
    (hopen : s.graph.node t = .pointer (.deferred side name))
    (hdone : s'.graph.node t = .pointer (.settled u)) :
    (s.home side).types.lookup name = some (.settled u)

theorem Later.refl (s : Types) : Later s s := by
  refine ⟨.refl _, rfl, fun hopen hdone => ?_⟩
  rw [hopen] at hdone
  cases hdone

theorem Later.home {s s' : Types} (h : Later s s') (side : Side) : s'.home side = s.home side := by
  rw [h.rest]
  rfl

theorem Later.trans {s s' s'' : Types} (h : Later s s') (h' : Later s' s'') : Later s s'' := by
  refine ⟨h.settles.trans h'.settles, ?_, fun {t u side name} hopen hdone => ?_⟩
  · rw [h'.rest, h.rest]
  · rcases h.settles.node t with hsame | ⟨-, target, hnode⟩
    · rw [← h.home side]
      exact h'.named (hsame.trans hopen) hdone
    · rcases h'.settles.node t with hsame' | ⟨hopen', -⟩
      · exact h.named hopen (hsame'.symm.trans hdone)
      · rw [hnode] at hopen'
        cases hopen'

theorem Later.eq {s s' : Types} (h : Later s s') (hgraph : s'.graph = s.graph) : s' = s := by
  rw [h.rest, hgraph]

theorem Later.antisymm {s s' : Types} (h : Later s s') (h' : Later s' s) : s' = s :=
  h.eq (h.settles.antisymm h'.settles)

theorem settleSelf_later (t : TypeId) (trail? : Option (List TypeId)) (s : Types) :
    Later s (settleSelf t trail? s).2 := by
  rw [settleSelf_apply]
  split
  · rename_i side name hnode
    split
    · rename_i target hlookup
      refine ⟨Graph.settles_set hnode _, rfl, fun {u _ _ _} hopen hdone => ?_⟩
      have hlt : t < s.graph.nodes.size := Graph.lt_size_of_node (by rw [hnode]; simp)
      by_cases hu : u = t
      · subst hu
        rw [Graph.node_set_self hlt] at hdone
        cases hdone
        cases hnode.symm.trans hopen
        exact hlookup
      · rw [Graph.node_set_ne hu, hopen] at hdone
        cases hdone
    · exact .refl s
    · exact .refl s
  · split <;> exact .refl s
  · exact .refl s

theorem later_bind {α β : Type} {m : TypesM α} {k : α → TypesM β} {s : Types}
    (hm : Later s (m s).2) (hk : ∀ a s', Later s' (k a s').2) : Later s ((m >>= k) s).2 := by
  rw [bind_apply]
  revert hm
  rcases m s with ⟨_ | a, s'⟩
  · exact id
  · intro hm
    exact hm.trans (hk a s')

theorem later_inTurn {α : Type} {each : α → Nat → TypesM Unit} {depth : Nat}
    (h : ∀ a s, Later s (each a depth s).2) (xs : List α) (s : Types) :
    Later s (inTurn each xs depth s).2 := by
  induction xs generalizing s with
  | nil => exact .refl s
  | cons a rest ih => exact later_bind (h a s) fun _ s' => ih s'

theorem settleVisit_later {depth : Nat} (h : ∀ t told s, Later s (settleFrom depth t told s).2)
    (v : Visit) (s : Types) : Later s (settleVisit v depth s).2 := by
  rw [settleVisit_apply]
  split
  · exact h v.part v.told s
  · exact .refl s

theorem settleFrom_later (depth : Nat) (t : TypeId) (told : Option (List TypeId)) (s : Types) :
    Later s (settleFrom depth t told s).2 := by
  induction depth generalizing t told s with
  | zero => exact .refl s
  | succ depth ih =>
    rw [settleFrom_succ]
    exact later_bind (settleSelf_later t told s) fun _ s' =>
      later_inTurn (settleVisit_later ih) _ s'

theorem visits_later (visits : List Visit) (depth : Nat) (s : Types) :
    Later s (inTurn settleVisit visits depth s).2 :=
  later_inTurn (settleVisit_later (settleFrom_later depth)) visits s

theorem Asks.later {c c' : Call} (h : Asks c c') : Later c.types c'.types := by
  obtain ⟨before, v, after, -, ⟨depth, hbefore⟩, -⟩ := h
  have hlater := visits_later before depth c.types
  rwa [hbefore] at hlater

namespace Graph

variable {g : Graph} {t : TypeId} {told : Option (List TypeId)} {v : Visit}

theorem hasDeferralsFrom_of_subset {fuel : Nat} {trail trail' : List TypeId} (hsub : trail' ⊆ trail)
    (h : g.hasDeferralsFrom fuel t trail = true) : g.hasDeferralsFrom fuel t trail' = true := by
  induction fuel generalizing t trail trail' with
  | zero => cases h
  | succ fuel ih =>
    have hcons : t :: trail' ⊆ t :: trail := List.cons_subset_cons t hsub
    have hoff (hmem : trail.contains t = false) : trail'.contains t = false := by
      simp only [List.contains_eq_mem, decide_eq_false_iff_not] at hmem ⊢
      exact fun hin => hmem (hsub hin)
    rw [hasDeferralsFrom] at h ⊢
    split at h
    · rfl
    iterate 3
      simp only [Bool.and_eq_true, Bool.not_eq_true'] at h ⊢
      exact ⟨hoff h.1, ih hcons h.2⟩
    · simp only [List.any_eq_true] at h ⊢
      obtain ⟨field, hmem, hfield⟩ := h
      exact ⟨field, hmem, ih hcons hfield⟩
    · cases h

theorem visits_told (hv : v ∈ g.visits t told) : v.told.getD [] ⊆ v.trail := by
  unfold visits at hv
  dsimp only at hv
  split at hv
  · obtain rfl := List.mem_singleton.1 hv
    exact List.nil_subset _
  · split at hv
    · cases hv
    · obtain rfl := List.mem_singleton.1 hv
      exact List.Subset.refl _
  · obtain rfl := List.mem_singleton.1 hv
    exact List.Subset.refl _
  · obtain ⟨field, -, rfl⟩ := List.mem_map.1 hv
    exact List.Subset.refl _
  · cases hv

theorem visits_part (hv : v ∈ g.visits t told) : v.told = none ∨ v.part ∈ (g.node t).parts := by
  unfold visits at hv
  dsimp only at hv
  split at hv
  · obtain rfl := List.mem_singleton.1 hv
    exact .inl rfl
  · rename_i hnode
    split at hv
    · cases hv
    · obtain rfl := List.mem_singleton.1 hv
      exact .inr (by rw [hnode]; exact List.mem_cons_self)
  · rename_i hnode
    obtain rfl := List.mem_singleton.1 hv
    exact .inr (by rw [hnode]; exact List.mem_cons_self)
  · rename_i hnode
    obtain ⟨field, hmem, rfl⟩ := List.mem_map.1 hv
    exact .inr (by rw [hnode]; exact List.mem_map_of_mem hmem)
  · cases hv

/-- An open target that is seen behind a type is the type itself, or it is seen behind a part; but an
array that is not told the trail looks at no part. -/
theorem Ordered.seen_visit (ordered : g.Ordered) {trail : List TypeId} (htold : told.getD [] ⊆ trail)
    (hseen : g.hasDeferrals t trail = true) (hopen : (g.node t).isOpen = false)
    (harray : ∀ element axes, g.node t = .array element axes → told.isNone = false) :
    ∃ v ∈ g.visits t told, g.hasDeferrals v.part v.trail = true := by
  have hsub : t :: told.getD [] ⊆ t :: trail := List.cons_subset_cons t htold
  rw [ordered.hasDeferrals_eq] at hseen
  rw [visits]
  split at hseen
  · rename_i hnode
    rw [hnode] at hopen
    cases hopen
  · rename_i target hnode
    rw [hnode]
    exact ⟨_, List.mem_cons_self,
      hasDeferralsFrom_of_subset hsub (Bool.and_eq_true_iff.1 hseen).2⟩
  · rename_i element axes hnode
    simp only [hnode, harray element axes hnode, Bool.false_eq_true, if_false]
    exact ⟨_, List.mem_cons_self,
      hasDeferralsFrom_of_subset hsub (Bool.and_eq_true_iff.1 hseen).2⟩
  · rename_i name of hnode
    rw [hnode]
    exact ⟨_, List.mem_cons_self,
      hasDeferralsFrom_of_subset hsub (Bool.and_eq_true_iff.1 hseen).2⟩
  · rename_i name fields size hnode
    rw [hnode]
    obtain ⟨field, hmem, hfield⟩ := List.any_eq_true.1 hseen
    exact ⟨_, List.mem_map_of_mem hmem, hasDeferralsFrom_of_subset hsub hfield⟩
  · cases hseen

end Graph

theorem settleSelf_progress {t : TypeId} {told : Option (List TypeId)} {s s' : Types}
    (ordered : s.graph.Ordered) {trail : List TypeId} (htold : told.getD [] ⊆ trail)
    (hseen : s.graph.hasDeferrals t trail = true) (hself : settleSelf t told s = (.ok (), s')) :
    s'.graph.openTargets ⊂ s.graph.openTargets ∨
      s' = s ∧ ∃ v ∈ s.graph.visits t told, s.graph.hasDeferrals v.part v.trail = true := by
  rw [settleSelf_apply] at hself
  split at hself
  · rename_i side name hnode
    split at hself
    · cases hself
      exact .inl (Graph.openTargets_set hnode _)
    · cases hself
    · cases hself
  · rename_i element axes hnode
    split at hself
    · cases hself
    · rename_i hsome
      cases hself
      exact .inr ⟨rfl, ordered.seen_visit htold hseen (by rw [hnode]; rfl) fun _ _ _ =>
        Bool.eq_false_iff.2 hsome⟩
  · rename_i hdeferred harray
    cases hself
    refine .inr ⟨rfl, ordered.seen_visit htold hseen ?_ fun element axes hnode =>
      absurd hnode (harray element axes)⟩
    rcases hnode : s.graph.node t with _ | _ | _ | _ | ⟨_ | ⟨side, name⟩⟩ | _ | _ | _ | _
    case pointer.deferred => exact absurd hnode (hdeferred side name)
    all_goals rfl

theorem inTurn_progress {depth : Nat}
    (h : ∀ t told trail s s', s.graph.Ordered → told.getD [] ⊆ trail →
      s.graph.hasDeferrals t trail = true → settleFrom depth t told s = (.ok (), s') →
      s'.graph.openTargets ⊂ s.graph.openTargets)
    (visits : List Visit) (htold : ∀ v ∈ visits, v.told.getD [] ⊆ v.trail) (s s' : Types)
    (ordered : s.graph.Ordered)
    (hseen : ∃ v ∈ visits, s.graph.hasDeferrals v.part v.trail = true)
    (hdone : inTurn settleVisit visits depth s = (.ok (), s')) :
    s'.graph.openTargets ⊂ s.graph.openTargets := by
  induction visits with
  | nil =>
    obtain ⟨v, hmem, -⟩ := hseen
    cases hmem
  | cons v rest ih =>
    rw [inTurn_cons] at hdone
    obtain ⟨_, s₁, hhead, htail⟩ := bind_ok hdone
    rw [settleVisit_apply] at hhead
    split at hhead
    · rename_i hv
      have hstrict := h _ _ _ _ _ ordered (htold v List.mem_cons_self) hv hhead
      have hlater := visits_later rest depth s₁
      rw [htail] at hlater
      exact lt_of_le_of_lt hlater.settles.openTargets_subset hstrict
    · rename_i hv
      cases hhead
      obtain ⟨w, hmem, hw⟩ := hseen
      rcases List.mem_cons.1 hmem with rfl | hmem
      · exact absurd hw hv
      · exact ih (fun u hu => htold u (List.mem_cons_of_mem _ hu)) ⟨w, hmem, hw⟩ htail

theorem settleFrom_progress (depth : Nat) (t : TypeId) (told : Option (List TypeId))
    (trail : List TypeId) (s s' : Types) (ordered : s.graph.Ordered) (htold : told.getD [] ⊆ trail)
    (hseen : s.graph.hasDeferrals t trail = true) (hdone : settleFrom depth t told s = (.ok (), s')) :
    s'.graph.openTargets ⊂ s.graph.openTargets := by
  induction depth generalizing t told trail s s' with
  | zero => cases hdone
  | succ depth ih =>
    rw [settleFrom_succ] at hdone
    obtain ⟨_, s₁, hself, hvisits⟩ := bind_ok hdone
    rcases settleSelf_progress ordered htold hseen hself with hstrict | ⟨rfl, hpart⟩
    · have hlater := visits_later (s.graph.visits t told) depth s₁
      rw [hvisits] at hlater
      exact lt_of_le_of_lt hlater.settles.openTargets_subset hstrict
    · exact inTurn_progress ih _ (fun v hv => Graph.visits_told hv) _ _ ordered hpart hvisits

/-- The part that settling goes into first, and what the part is told of the trail. -/
def Graph.lead (g : Graph) (t : TypeId) (told : Option (List TypeId)) :
    Option (TypeId × Option (List TypeId)) :=
  ((g.visits t told).find? fun v => g.hasDeferrals v.part v.trail).map fun v => (v.part, v.told)

def Graph.Leads (g : Graph) (a b : TypeId × Option (List TypeId)) : Prop :=
  g.lead a.1 a.2 = some b

/-- The way that always goes into the first part behind which an open target is seen leads from a type,
entered through a pointer, back to it. -/
def Graph.Circles (g : Graph) (t : TypeId) : Prop := TransGen g.Leads (t, none) (t, none)

theorem asks_of_leads {s : Types} {a b : TypeId × Option (List TypeId)} (h : s.graph.Leads a b) :
    Asks ⟨s, a.1, a.2⟩ ⟨s, b.1, b.2⟩ := by
  obtain ⟨v, hfind, rfl⟩ := Option.map_eq_some_iff.1 h
  obtain ⟨hseen, before, after, hsplit, hunseen⟩ := List.find?_eq_some_iff_append.1 hfind
  refine ⟨before, v, after, hsplit, ⟨0, ?_⟩, hseen, rfl, rfl⟩
  clear hsplit hfind
  induction before with
  | nil => rfl
  | cons w rest ih =>
    have hw : s.graph.hasDeferrals w.part w.trail = false := by
      simpa using hunseen w List.mem_cons_self
    rw [inTurn_cons, bind_apply, settleVisit_apply, hw]
    exact ih fun u hu => hunseen u (List.mem_cons_of_mem _ hu)

theorem Asks.leads {c c' : Call} (ordered : c.types.graph.Ordered) (h : Asks c c')
    (hsame : c'.types = c.types) : c.types.graph.Leads (c.type, c.told) (c'.type, c'.told) := by
  obtain ⟨before, v, after, hsplit, ⟨depth, hbefore⟩, hseen, htype, htold⟩ := h
  rw [hsame] at hbefore hseen
  refine Option.map_eq_some_iff.2 ⟨v, ?_, by rw [htype, htold]⟩
  refine List.find?_eq_some_iff_append.2 ⟨hseen, before, after, hsplit, fun w hw => ?_⟩
  have hvisits (u : Visit) (hu : u ∈ before) : u ∈ c.types.graph.visits c.type c.told := by
    rw [hsplit]
    exact List.mem_append_left _ hu
  by_contra hwseen
  exact lt_irrefl _ (inTurn_progress (settleFrom_progress depth) before
    (fun u hu => Graph.visits_told (hvisits u hu)) c.types c.types ordered
    ⟨w, hw, by simpa using hwseen⟩ hbefore)

theorem later_of_transGen {c c' : Call} (h : TransGen Asks c c') : Later c.types c'.types := by
  induction h with
  | single hasks => exact hasks.later
  | tail _ hasks ih => exact ih.trans hasks.later

theorem leads_of_transGen {c c' : Call} (ordered : c.types.graph.Ordered) (h : TransGen Asks c c')
    (hsame : c'.types = c.types) :
    TransGen c.types.graph.Leads (c.type, c.told) (c'.type, c'.told) := by
  induction h with
  | single hasks => exact .single (hasks.leads ordered hsame)
  | tail hfirst hasks ih =>
    rename_i b c'
    have hb : b.types = c.types := (later_of_transGen hfirst).antisymm (hsame ▸ hasks.later)
    have hlast := hasks.leads (hb ▸ ordered) (hsame.trans hb.symm)
    rw [hb] at hlast
    exact (ih hb).tail hlast

theorem circles_iff {s : Types} (ordered : s.graph.Ordered) {t : TypeId} :
    s.graph.Circles t ↔ TransGen Asks ⟨s, t, none⟩ ⟨s, t, none⟩ := by
  refine ⟨fun h => ?_, fun h => leads_of_transGen ordered h rfl⟩
  exact TransGen.lift (fun a : TypeId × Option (List TypeId) => (⟨s, a.1, a.2⟩ : Call))
    (fun _ _ hleads => asks_of_leads hleads) _ _ h

/-- Where no call leads back to itself, the calls end. While nothing is settled, a way goes by value
down the graph, or through a pointer to a type that it did not come to through a pointer before. -/
theorem acc_of_no_return {start : Call}
    (h : ∀ s t, ReflTransGen Asks start ⟨s, t, none⟩ → ¬TransGen Asks ⟨s, t, none⟩ ⟨s, t, none⟩)
    (c : Call) (visited : Finset TypeId) (ordered : c.types.graph.Ordered)
    (hstart : ReflTransGen Asks start c)
    (hrange : visited ⊆ Finset.range c.types.graph.nodes.size)
    (hback : ∀ t ∈ visited, ReflTransGen Asks ⟨c.types, t, none⟩ c) :
    Acc (fun c' c => Asks c c') c := by
  refine ⟨c, fun c' hasks => ?_⟩
  have hlater := hasks.later
  have ordered' := hlater.settles.ordered ordered
  by_cases hsame : c'.types = c.types
  · obtain ⟨before, v, after, hsplit, -, hseen, htype, htold⟩ := id hasks
    have hv : v ∈ c.types.graph.visits c.type c.told := by
      rw [hsplit]
      exact List.mem_append_right _ List.mem_cons_self
    rcases Graph.visits_part hv with hnone | hpart
    · -- through a pointer; a type it came to before in this way would be a call back to itself
      have hcall : (⟨c.types, c'.type, none⟩ : Call) = c' := by
        obtain ⟨_, _, _⟩ := c'
        simp only at hsame htold
        rw [hsame, htold, hnone]
      have hnew : c'.type ∉ visited := by
        intro hvisited
        refine h c.types c'.type ?_ ?_
        · rw [hcall]
          exact hstart.tail hasks
        · have hround := TransGen.tail' (hback _ hvisited) hasks
          rwa [← hcall] at hround
      have hsmall : c'.type < c.types.graph.nodes.size := by
        rw [htype, ← hsame]
        exact ordered'.hasDeferrals_lt_size hseen
      have hrange' : insert c'.type visited ⊆ Finset.range c.types.graph.nodes.size :=
        Finset.insert_subset (Finset.mem_range.2 hsmall) hrange
      have hcard : visited.card + 1 ≤ c.types.graph.nodes.size := by
        rw [← Finset.card_insert_of_notMem hnew, ← Finset.card_range c.types.graph.nodes.size]
        exact Finset.card_le_card hrange'
      refine acc_of_no_return h c' (insert c'.type visited) ordered' (hstart.tail hasks)
        (hsame ▸ hrange') fun t ht => ?_
      rcases Finset.mem_insert.1 ht with rfl | ht
      · rw [hsame, hcall]
      · exact hsame ▸ (hback t ht).tail hasks
    · have hdown : c'.type < c.type := htype ▸ ordered c.type v.part hpart
      exact acc_of_no_return h c' visited ordered' (hstart.tail hasks) (hsame ▸ hrange)
        fun t ht => hsame ▸ (hback t ht).tail hasks
  · have hfewer : c'.types.graph.openTargets ⊂ c.types.graph.openTargets := by
      refine lt_of_le_of_ne hlater.settles.openTargets_subset fun heq => hsame ?_
      exact hlater.eq (hlater.settles.eq_of_openTargets heq)
    exact acc_of_no_return h c' ∅ ordered' (hstart.tail hasks) (Finset.empty_subset _)
      fun t ht => absurd ht (Finset.notMem_empty t)
termination_by
  (c.types.graph.openTargets.card, c.types.graph.nodes.size - visited.card, c.type)
decreasing_by
  · simp only [hsame, Finset.card_insert_of_notMem hnew]
    exact .right _ (.left _ _ (by omega))
  · simp only [hsame]
    exact .right _ (.right _ hdown)
  · exact .left _ _ (Finset.card_lt_card hfewer)

theorem not_transGen_of_acc {c : Call} (h : Acc (fun c' c => Asks c c') c) : ¬TransGen Asks c c := by
  induction h with
  | intro c _ ih =>
    intro hround
    obtain ⟨c', hasks, hrest⟩ := TransGen.head'_iff.1 hround
    exact ih c' hasks (TransGen.tail' hrest hasks)

theorem acc_of_reflTransGen {c c' : Call} (h : Acc (fun c' c => Asks c c') c)
    (hreach : ReflTransGen Asks c c') : Acc (fun c' c => Asks c c') c' := by
  induction hreach with
  | refl => exact h
  | tail _ hasks ih => exact ih.inv hasks

theorem Call.ordered_of_reflTransGen {c c' : Call} (ordered : c.types.graph.Ordered)
    (h : ReflTransGen Asks c c') : c'.types.graph.Ordered := by
  induction h with
  | refl => exact ordered
  | tail _ hasks ih => exact hasks.later.settles.ordered ih

/-- A call leads to the call for a type that circles. -/
def Call.Circular (c : Call) : Prop :=
  ∃ s t, ReflTransGen Asks c ⟨s, t, none⟩ ∧ s.graph.Circles t

theorem Call.ends_iff (c : Call) (ordered : c.types.graph.Ordered) : c.Ends ↔ ¬c.Circular := by
  rw [Call.ends_iff_acc]
  constructor
  · rintro hacc ⟨s, t, hreach, hcircle⟩
    have hround := (circles_iff (ordered_of_reflTransGen ordered hreach)).1 hcircle
    exact not_transGen_of_acc (acc_of_reflTransGen hacc hreach) hround
  · intro hno
    have hreturn (s : Types) (t : TypeId) (hreach : ReflTransGen Asks c ⟨s, t, none⟩) :
        ¬TransGen Asks ⟨s, t, none⟩ ⟨s, t, none⟩ := fun hround =>
      hno ⟨s, t, hreach, (circles_iff (ordered_of_reflTransGen ordered hreach)).2 hround⟩
    exact acc_of_no_return hreturn c ∅ ordered .refl (Finset.empty_subset _) fun t ht =>
      absurd ht (Finset.notMem_empty t)

def settleEntry (entry : String × Entry) (depth : Nat) : TypesM Unit :=
  match entry.2 with
  | .deferred .. => throw (.typing (.stillDeferred entry.1))
  | .settled t => settleVisit ⟨t, [], none⟩ depth

theorem settleEntry_settled (name : String) (t : TypeId) :
    settleEntry (name, .settled t) = settleVisit ⟨t, [], none⟩ := rfl

theorem settleAllWithin_apply (depth : Nat) (s : Types) :
    settleAllWithin depth s = inTurn settleEntry s.registry.types depth s := by
  rw [settleAllWithin, bind_apply, get_apply, inTurn]
  dsimp only
  refine congrFun (congrArg _ ?_) s
  funext ⟨name, entry⟩
  cases entry <;> rfl

theorem settleEntry_deepens (entry : String × Entry) : Deepens (settleEntry entry) := by
  obtain ⟨name, t | ⟨side, name'⟩⟩ := entry
  · exact settleVisit_deepens _
  · exact fun _ _ _ => rfl

theorem settleEntry_later (depth : Nat) (entry : String × Entry) (s : Types) :
    Later s (settleEntry entry depth s).2 := by
  obtain ⟨name, t | ⟨side, name'⟩⟩ := entry
  · exact settleVisit_later (settleFrom_later depth) _ s
  · exact .refl s

theorem settleAll_later (s : Types) : Later s (settleAll s).2 := by
  rw [settleAll, settleAllWithin_apply]
  exact later_inTurn (settleEntry_later settleDepth) _ s

/-- The calls made to settle every registered type: when the names before are done, an open target is
seen behind the type of a name. -/
def Demands (s : Types) (c : Call) : Prop :=
  ∃ before name after, s.registry.types = before ++ (name, .settled c.type) :: after ∧
    Completes (inTurn settleEntry before) s c.types ∧
    c.types.graph.hasDeferrals c.type [] = true ∧ c.told = none

theorem Demands.ordered {s : Types} {c : Call} (h : Demands s c) (ordered : s.graph.Ordered) :
    c.types.graph.Ordered := by
  obtain ⟨before, -, -, -, ⟨depth, hbefore⟩, -⟩ := h
  have hlater := later_inTurn (settleEntry_later depth) before s
  rw [hbefore] at hlater
  exact hlater.settles.ordered ordered

theorem settleAll_ends_iff (s : Types) : Ends settleAllWithin s ↔ ∀ c, Demands s c → c.Ends := by
  have hall : Ends settleAllWithin s ↔ Ends (inTurn settleEntry s.registry.types) s := by
    simp only [Ends, settleAllWithin_apply]
  rw [hall, ends_inTurn settleEntry_deepens]
  constructor
  · rintro h c ⟨before, name, after, hsplit, hbefore, hseen, htold⟩
    obtain ⟨depth, hdepth⟩ := h before _ after c.types hsplit hbefore
    refine ⟨depth, ?_⟩
    rwa [settleEntry_settled, settleVisit_apply, if_pos hseen, ← htold] at hdepth
  · rintro h before ⟨name, t | ⟨side, name'⟩⟩ after s' hsplit hbefore
    · by_cases hseen : s'.graph.hasDeferrals t [] = true
      · obtain ⟨depth, hdepth⟩ := h ⟨s', t, none⟩ ⟨before, name, after, hsplit, hbefore, hseen, rfl⟩
        refine ⟨depth, ?_⟩
        rwa [settleEntry_settled, settleVisit_apply, if_pos hseen]
      · refine ⟨0, ?_⟩
        rw [settleEntry_settled, settleVisit_apply, if_neg hseen]
        simp
    · exact ⟨0, by simp [settleEntry, throw_apply]⟩

end Chalkboard.Types
