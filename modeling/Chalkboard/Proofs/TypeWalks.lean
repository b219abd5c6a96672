import Chalkboard.Proofs.Reachable

/-! What the check of a type measures. A walk from a type enters no type twice, and its level grows from an
array to its element and from a tuple to its fields. The check tours the types in much the same way, but it
passes synonyms without noting what they stand for, and below an array it forgets the way that it came. So it
finds whatever a walk finds, and may come back to a type at a level that no walk gets to. -/

namespace Chalkboard.Types

open Effects Relation

/-- Where a walk stands: at a type, at a level, with the types that it came through. -/
structure Stand where
  type : TypeId
  level : Int
  trail : List TypeId

abbrev Stand.start (t : TypeId) : Stand := ⟨t, 1, []⟩

/-- Whether a type at a level goes over a limit. -/
def Node.exceeds (limits : Limits) (level : Int) (n : Node) : Exceeded → Bool
  | .typeDepth => Types.exceeds limits.typeDepth level
  | .arrayDimensions =>
    match n with
    | .array _ axes => Types.exceeds limits.arrayDimensions axes.length
    | _ => false
  | .arraySize =>
    match n with
    | .array _ axes =>
      match elementCount axes with
      | .ok (.int count) => Types.exceeds limits.arraySize count
      | _ => false
    | _ => false
  | .tupleSize =>
    match n with
    | .tuple _ fields _ => Types.exceeds limits.tupleSize fields.length
    | _ => false
  | .steps | .memory => false

/-- A walk goes on to a type that it did not come through. -/
inductive Graph.Enters (g : Graph) : Stand → Stand → Prop
  | intro {s : Stand} {u : TypeId} (hu : u ∈ (g.node s.type).links) (hnew : u ∉ s.type :: s.trail) :
      Enters g s ⟨u, (g.node s.type).below s.level, s.type :: s.trail⟩

def Graph.Walks (g : Graph) (t : TypeId) : Stand → Prop := ReflTransGen g.Enters (.start t)

/-- The check goes on from a type that is not on its trail to all that the type stands for leads to. -/
inductive Graph.Probes (g : Graph) : Stand → Stand → Prop
  | intro {s : Stand} {c u : TypeId} (hoff : s.type ∉ s.trail) (hc : g.closure s.type = .ok c)
      (hu : u ∈ (g.node c).links) :
      Probes g s ⟨u, (g.node c).below s.level, (g.node c).kept (s.type :: s.trail)⟩

/-- So many steps of the check, one inside the other. -/
inductive Graph.Tour (g : Graph) : Nat → Stand → Stand → Prop
  | here (s : Stand) : Tour g 0 s s
  | step {n : Nat} {s s' s'' : Stand} (h : g.Probes s s') (rest : Tour g n s' s'') : Tour g (n + 1) s s''

/-- The check comes to a type that is not on its trail and stands for one that goes over a limit. -/
def Graph.Meets (g : Graph) (limits : Limits) (s : Stand) (l : Exceeded) : Prop :=
  s.type ∉ s.trail ∧ ∃ c, g.closure s.type = .ok c ∧ (g.node c).exceeds limits s.level l = true

section Tours

variable {s : Types} {limits : Limits} {n : Node} {w w' : Stand}

theorem forM_cases {α : Type} (f : α → Except Fault Unit) (xs : List α) :
    xs.forM f = .ok () ∨ ∃ x ∈ xs, ∃ e, f x = .error e ∧ xs.forM f = .error e := by
  induction xs with
  | nil => exact .inl rfl
  | cons x xs ih =>
    change (f x >>= fun _ => xs.forM f) = _ ∨ ∃ y ∈ x :: xs, ∃ e, f y = .error e ∧
      (f x >>= fun _ => xs.forM f) = .error e
    rcases hx : f x with e | _
    · exact .inr ⟨x, List.mem_cons_self, e, hx, rfl⟩
    · rcases ih with hok | ⟨y, hy, e, hfails, he⟩
      · exact .inl hok
      · exact .inr ⟨y, List.mem_cons_of_mem _ hy, e, hfails, he⟩

theorem Node.measure_cases (hplain : n.Plain) (hdepth : Types.exceeds limits.typeDepth w.level = false) :
    n.measure limits = .ok () ∧ (∀ l, n.exceeds limits w.level l = false) ∨
      ∃ l, n.measure limits = .error (.limit l) ∧ n.exceeds limits w.level l = true := by
  cases n with
  | array element axes =>
    obtain ⟨k, hk⟩ := elementCount_ok hplain.2
    have hcount : (Node.array element axes).exceeds limits w.level .arraySize =
        Types.exceeds limits.arraySize k := by
      rw [Node.exceeds, hk]
    dsimp only [measure]
    rw [valueExceeds_int _ hk]
    cases hdimensions : Types.exceeds limits.arrayDimensions axes.length with
    | true => exact .inr ⟨_, rfl, hdimensions⟩
    | false =>
      cases hmany : Types.exceeds limits.arraySize k with
      | true => exact .inr ⟨_, rfl, hcount.trans hmany⟩
      | false =>
        refine .inl ⟨rfl, fun l => ?_⟩
        cases l with
        | typeDepth => exact hdepth
        | arrayDimensions => exact hdimensions
        | arraySize => exact hcount.trans hmany
        | _ => rfl
  | tuple name fields =>
    dsimp only [measure]
    cases hfields : Types.exceeds limits.tupleSize fields.length with
    | true => exact .inr ⟨_, rfl, hfields⟩
    | false =>
      refine .inl ⟨rfl, fun l => ?_⟩
      cases l with
      | typeDepth => exact hdepth
      | tupleSize => exact hfields
      | _ => rfl
  | _ =>
    refine .inl ⟨rfl, fun l => ?_⟩
    cases l with
    | typeDepth => exact hdepth
    | _ => rfl

theorem Graph.Probes.usable (hs : s.Sound) (h : s.graph.Probes w w') : s.Usable w'.type := by
  cases h with
  | intro _ _ hu => exact hs.link_usable hu

theorem Graph.Probes.entered {g : Graph} (h : g.Probes w w') : w.type ∉ w.trail := by
  cases h with
  | intro hoff => exact hoff

/-- One step of the check: it passes here and everywhere that it goes on to, or it meets a type that goes over
a limit, or it fails as it does somewhere that it goes on to. -/
theorem Sound.checkFrom_cases (hs : s.Sound) (hw : s.Usable w.type) (limits : Limits) (fuel : Nat) :
    let check := s.graph.checkFrom limits (fuel + 1) w.type w.level w.trail
    (check = .ok () ∧ (∀ l, ¬s.graph.Meets limits w l) ∧
      ∀ w', s.graph.Probes w w' → s.graph.checkFrom limits fuel w'.type w'.level w'.trail = .ok ()) ∨
    (∃ l, check = .error (.limit l) ∧ s.graph.Meets limits w l) ∨
    ∃ w', s.graph.Probes w w' ∧ ∃ e,
      s.graph.checkFrom limits fuel w'.type w'.level w'.trail = .error e ∧ check = .error e := by
  intro check
  by_cases hoff : w.type ∈ w.trail
  · have hpassed : check = .ok () := by
      change s.graph.checkFrom limits (fuel + 1) w.type w.level w.trail = .ok ()
      rw [Graph.checkFrom, if_pos (by simpa using hoff)]
    refine .inl ⟨hpassed, fun l hmeets => hmeets.1 hoff, fun w' hprobes => ?_⟩
    cases hprobes with
    | intro hnew => exact absurd hoff hnew
  obtain ⟨c, hc⟩ := hs.closes hw
  have hcheck : check = _ := Graph.checkFrom_off hoff
  rw [hc, except_ok_bind] at hcheck
  split at hcheck
  · rename_i hdepth
    exact .inr (.inl ⟨.typeDepth, hcheck, hoff, c, hc, hdepth⟩)
  rename_i hdepth
  rcases Node.measure_cases (hs.graph.plain c) (Bool.eq_false_iff.2 hdepth) with
    ⟨hmeasure, hnone⟩ | ⟨l, hmeasure, hl⟩ <;> rw [hmeasure] at hcheck
  · rcases forM_cases (fun u => s.graph.checkFrom limits fuel u ((s.graph.node c).below w.level)
      ((s.graph.node c).kept (w.type :: w.trail))) (s.graph.node c).links with hok | ⟨u, hu, e, hfails, he⟩
    · refine .inl ⟨hcheck.trans hok, fun l hmeets => ?_, fun w' hprobes => ?_⟩
      · obtain ⟨-, c', hc', hexceeds⟩ := hmeets
        cases hc.symm.trans hc'
        cases (hnone l).symm.trans hexceeds
      · cases hprobes with
        | intro _ hc' hu =>
          cases hc.symm.trans hc'
          exact forM_ok_iff.1 hok _ hu
    · exact .inr (.inr ⟨_, .intro hoff hc hu, e, hfails, hcheck.trans he⟩)
  · exact .inr (.inl ⟨l, hcheck, hoff, c, hc, hl⟩)

variable {e : Fault} {fuel : Nat} {t : TypeId}

theorem Sound.checkFrom_error (hs : s.Sound) (hw : s.Usable w.type)
    (h : s.graph.checkFrom limits fuel w.type w.level w.trail = .error e) :
    (∃ l, e = .limit l ∧ ∃ n w', s.graph.Tour n w w' ∧ s.graph.Meets limits w' l) ∨
      e = .misuse .endless ∧ ∃ w', s.graph.Tour fuel w w' := by
  induction fuel generalizing w with
  | zero =>
    cases h
    exact .inr ⟨rfl, w, .here w⟩
  | succ fuel ih =>
    rcases hs.checkFrom_cases hw limits fuel with
      ⟨hok, -⟩ | ⟨l, hl, hmeets⟩ | ⟨w', hprobes, e', hbelow, he⟩
    · cases h.symm.trans hok
    · cases h.symm.trans hl
      exact .inl ⟨l, rfl, 0, w, .here w, hmeets⟩
    · cases h.symm.trans he
      rcases ih (hprobes.usable hs) hbelow with ⟨l, hl, n, w'', htour, hmeets⟩ | ⟨hendless, w'', htour⟩
      · exact .inl ⟨l, hl, n + 1, w'', .step hprobes htour, hmeets⟩
      · exact .inr ⟨hendless, w'', .step hprobes htour⟩

theorem Sound.checkFrom_ok_iff (hs : s.Sound) (hw : s.Usable w.type) :
    s.graph.checkFrom limits fuel w.type w.level w.trail = .ok () ↔
      ∀ n w', s.graph.Tour n w w' → n < fuel ∧ ∀ l, ¬s.graph.Meets limits w' l := by
  constructor
  · intro h n w' htour
    induction htour generalizing fuel with
    | here w =>
      cases fuel with
      | zero => cases h
      | succ fuel =>
        rcases hs.checkFrom_cases hw limits fuel with
          ⟨-, hnone, -⟩ | ⟨l, hl, -⟩ | ⟨_, -, e, -, he⟩
        · exact ⟨Nat.succ_pos fuel, hnone⟩
        · cases h.symm.trans hl
        · cases h.symm.trans he
    | step hprobes _ ih =>
      cases fuel with
      | zero => cases h
      | succ fuel =>
        rcases hs.checkFrom_cases hw limits fuel with
          ⟨-, -, hall⟩ | ⟨l, hl, -⟩ | ⟨_, -, e, -, he⟩
        · obtain ⟨hlt, hnone⟩ := ih (hprobes.usable hs) (hall _ hprobes)
          exact ⟨Nat.succ_lt_succ hlt, hnone⟩
        · cases h.symm.trans hl
        · cases h.symm.trans he
  · intro h
    rcases hcheck : s.graph.checkFrom limits fuel w.type w.level w.trail with e | _
    · rcases hs.checkFrom_error hw hcheck with ⟨l, -, n, w', htour, hmeets⟩ | ⟨-, w', htour⟩
      · exact absurd hmeets ((h n w' htour).2 l)
      · exact absurd (h fuel w' htour).1 (Nat.lt_irrefl fuel)
    · rfl

theorem Graph.checkFuel_le (g : Graph) (limits : Limits) : g.checkFuel limits ≤ longestWalk := by
  rw [checkFuel]
  split
  · exact Nat.min_le_left _ _
  · exact Nat.le_refl _

theorem Sound.checkFuel_of_endless (hs : s.Sound) (ht : s.Usable t)
    (h : s.graph.checkLimits limits t = .error (.misuse .endless)) :
    s.graph.checkFuel limits = longestWalk := by
  rcases hmost : limits.typeDepth with _ | most
  · rw [Graph.checkFuel, hmost]
  by_cases hsmall : (most.toNat + 2) * (s.graph.nodes.size + 2) ≤ longestWalk
  · have hlimit := hs.checkLimits_ends ht hmost hsmall _ h
    cases hlimit
  · rw [Graph.checkFuel, hmost]
    exact Nat.min_eq_left (Nat.le_of_not_le hsmall)

theorem Sound.checkLimits_error (hs : s.Sound) (ht : s.Usable t)
    (h : s.graph.checkLimits limits t = .error e) :
    (∃ l, e = .limit l ∧ ∃ n w, s.graph.Tour n (.start t) w ∧ s.graph.Meets limits w l) ∨
      e = .misuse .endless ∧ ∃ w, s.graph.Tour longestWalk (.start t) w := by
  rcases hs.checkFrom_error (w := .start t) ht h with hlimit | ⟨rfl, htour⟩
  · exact .inl hlimit
  · rw [hs.checkFuel_of_endless ht h] at htour
    exact .inr ⟨rfl, htour⟩

theorem Sound.checkLimits_ok_iff (hs : s.Sound) (ht : s.Usable t) :
    s.graph.checkLimits limits t = .ok () ↔
      ∀ n w, s.graph.Tour n (.start t) w → n < longestWalk ∧ ∀ l, ¬s.graph.Meets limits w l := by
  constructor
  · intro h n w htour
    obtain ⟨hlt, hnone⟩ := (hs.checkFrom_ok_iff (w := .start t) ht).1 h n w htour
    exact ⟨Nat.lt_of_lt_of_le hlt (s.graph.checkFuel_le limits), hnone⟩
  · intro h
    rcases hcheck : s.graph.checkLimits limits t with e | _
    · rcases hs.checkLimits_error ht hcheck with ⟨l, -, n, w, htour, hmeets⟩ | ⟨-, w, htour⟩
      · exact absurd hmeets ((h n w htour).2 l)
      · exact absurd (h _ w htour).1 (Nat.lt_irrefl _)
    · rfl

end Tours

def Graph.Turns (g : Graph) (t : TypeId) : Prop := TransGen (fun t u => u ∈ (g.node t).links) t t

section Walks

variable {g : Graph} {limits : Limits} {t u of : TypeId} {w w' : Stand} {n : Node} {l : Exceeded}

theorem Node.links_of_meant (h : n.meant = some of) : n.links = [of] := by
  cases n <;> cases h
  rfl

theorem Node.below_of_meant (h : n.meant = some of) (level : Int) : n.below level = level := by
  cases n <;> cases h
  rfl

theorem Node.below_le (level : Int) : n.below level ≤ level + 1 := by
  cases n <;> simp only [Node.below] <;> omega

theorem Node.kept_subset (trail : List TypeId) : n.kept trail ⊆ trail := by
  cases n with
  | array => exact List.nil_subset _
  | _ => exact List.Subset.refl _

theorem Node.exceeds_of_meant (h : n.meant = some of) {level : Int} (hl : n.exceeds limits level l = true) :
    l = .typeDepth := by
  cases n <;> cases h
  cases l <;> first | rfl | cases hl

theorem Graph.reaches_closure (h : g.closure t = .ok u) : g.Reaches t u :=
  closure_keeps (K := g.Reaches t) (fun _ _ hx hy => hx.tail hy) h .refl

theorem Graph.Walks.leads (h : g.Walks t w) {x : TypeId} (hx : x ∈ w.trail) :
    TransGen (fun t u => u ∈ (g.node t).links) x w.type := by
  induction h with
  | refl => cases hx
  | tail _ henters ih =>
    cases henters with
    | intro hu =>
      rcases List.mem_cons.1 hx with rfl | hx
      · exact .single hu
      · exact (ih hx).tail hu

theorem Graph.Walks.reaches_end (h : g.Walks t w) {x : TypeId} (hx : x ∈ w.type :: w.trail) :
    g.Reaches x w.type := by
  rcases List.mem_cons.1 hx with rfl | hx
  · exact .refl
  · exact (h.leads hx).to_reflTransGen

theorem Graph.Walks.nodup (h : g.Walks t w) : (w.type :: w.trail).Nodup := by
  induction h with
  | refl => exact List.nodup_singleton t
  | tail _ henters ih =>
    cases henters with
    | intro _ hnew => exact List.nodup_cons.2 ⟨hnew, ih⟩

theorem Graph.Walks.level_le (h : g.Walks t w) : w.level ≤ 1 + w.trail.length := by
  induction h with
  | refl => exact Int.le_refl 1
  | @tail w _ _ henters ih =>
    cases henters with
    | intro =>
      have hbelow := Node.below_le (n := g.node w.type) w.level
      dsimp only
      rw [List.length_cons]
      omega

theorem Graph.Walks.cut (h : g.Walks t w) {x : TypeId} (hx : x ∈ w.type :: w.trail) :
    ∃ w', g.Walks t w' ∧ w'.type = x := by
  induction h with
  | refl => exact ⟨_, .refl, (List.mem_singleton.1 hx).symm⟩
  | tail hbefore henters ih =>
    cases henters with
    | intro hu hnew =>
      rcases List.mem_cons.1 hx with rfl | hx
      · exact ⟨_, hbefore.tail (.intro hu hnew), rfl⟩
      · exact ih hx

theorem Graph.walks_of_reaches (h : g.Reaches t u) : ∃ w, g.Walks t w ∧ w.type = u := by
  induction h with
  | refl => exact ⟨_, .refl, rfl⟩
  | @tail b u _ hu ih =>
    obtain ⟨w, hw, rfl⟩ := ih
    by_cases hold : u ∈ w.type :: w.trail
    · exact hw.cut hold
    · exact ⟨_, hw.tail (.intro hu hold), rfl⟩

theorem Graph.Tour.snoc {k : Nat} {w'' : Stand} (h : g.Tour k w w') (hprobes : g.Probes w' w'') :
    g.Tour (k + 1) w w'' := by
  induction h with
  | here => exact .step hprobes (.here _)
  | step hfirst _ ih => exact .step hfirst (ih hprobes)

theorem Graph.Tour.last {k : Nat} (h : g.Tour (k + 1) w w') : ∃ v, g.Tour k w v ∧ g.Probes v w' := by
  induction k generalizing w with
  | zero =>
    cases h with
    | step hprobes rest =>
      cases rest
      exact ⟨w, .here w, hprobes⟩
  | succ k ih =>
    cases h with
    | step hprobes rest =>
      obtain ⟨v, htour, hlast⟩ := ih rest
      exact ⟨v, .step hprobes htour, hlast⟩

theorem Graph.Tour.reaches {k : Nat} (h : g.Tour k w w') : g.Reaches w.type w'.type := by
  induction h with
  | here => exact .refl
  | step hprobes _ ih =>
    cases hprobes with
    | intro _ hc hu => exact ((reaches_closure hc).tail hu).trans ih

theorem Sound.tour_of_walks {s : Types} (hs : s.Sound) (ht : s.Usable t) (h : s.graph.Walks t w) :
    ∃ k w', s.graph.Tour k (.start t) w' ∧ w'.type ∉ w'.trail ∧ w'.type ∈ w.type :: w.trail ∧
      w'.trail ⊆ w.trail ∧ w'.level = w.level ∧
      ∃ c, s.graph.closure w'.type = .ok c ∧ s.graph.closure w.type = .ok c := by
  induction h with
  | refl =>
    obtain ⟨c, hc⟩ := hs.closes ht
    exact ⟨0, .start t, .here _, List.not_mem_nil, List.mem_cons_self, List.Subset.refl _, rfl, c, hc, hc⟩
  | @tail w _ _ henters ih =>
    obtain ⟨k, w', htour, hoff, hmem, htrail, hlevel, c, hc', hc⟩ := ih
    cases henters with
    | @intro u hu hnew =>
      rcases hmeant : (s.graph.node w.type).meant with _ | of
      · cases (Graph.closure_self hmeant).symm.trans hc
        obtain ⟨c, hc⟩ := hs.closes (hs.link_usable hu)
        have hsub : w'.type :: w'.trail ⊆ w.type :: w.trail :=
          List.cons_subset.2 ⟨hmem, fun x hx => List.mem_cons_of_mem _ (htrail hx)⟩
        have hkept := List.Subset.trans (Node.kept_subset (n := s.graph.node w.type) (w'.type :: w'.trail)) hsub
        refine ⟨k + 1, _, htour.snoc (.intro hoff hc' hu), fun hold => hnew (hkept hold), List.mem_cons_self,
          hkept, by rw [hlevel], c, hc, hc⟩
      · rw [Node.links_of_meant hmeant, List.mem_singleton] at hu
        subst hu
        refine ⟨k, w', htour, hoff, List.mem_cons_of_mem _ hmem,
          fun x hx => List.mem_cons_of_mem _ (htrail hx), ?_, c, hc', Graph.closure_of_meant hmeant hc⟩
        rw [hlevel, Node.below_of_meant hmeant]

theorem Sound.meets_of_walks {s : Types} (hs : s.Sound) (ht : s.Usable t) (h : s.graph.Walks t w)
    (hl : (s.graph.node w.type).exceeds limits w.level l = true) :
    ∃ k w', s.graph.Tour k (.start t) w' ∧ s.graph.Meets limits w' l := by
  obtain ⟨k, w', htour, hoff, -, -, hlevel, c, hc', hc⟩ := hs.tour_of_walks ht h
  refine ⟨k, w', htour, hoff, c, hc', ?_⟩
  rw [hlevel]
  rcases hmeant : (s.graph.node w.type).meant with _ | of
  · cases (Graph.closure_self hmeant).symm.trans hc
    exact hl
  · cases Node.exceeds_of_meant hmeant hl
    exact hl

theorem Graph.walks_of_meets {k : Nat} (htour : g.Tour k (.start t) w) (hmeets : g.Meets limits w l)
    (hl : l ≠ .typeDepth) : ∃ w', g.Walks t w' ∧ (g.node w'.type).exceeds limits w'.level l = true := by
  obtain ⟨-, c, hc, hexceeds⟩ := hmeets
  obtain ⟨w', hw', rfl⟩ := walks_of_reaches (htour.reaches.trans (reaches_closure hc))
  refine ⟨w', hw', ?_⟩
  cases l with
  | typeDepth => exact absurd rfl hl
  | _ => exact hexceeds

end Walks

/-- No array that a type leads to leads back to itself, and nothing that a synonym stands for does. -/
structure Graph.Guarded (g : Graph) (t : TypeId) : Prop where
  array {u element : TypeId} {axes : List Axis} (hu : g.Reaches t u) (hnode : g.node u = .array element axes) :
    ¬g.Turns u
  synonym {u of : TypeId} (hu : g.Reaches t u) (hmeant : (g.node u).meant = some of) : ¬g.Turns of

/-- A walk stands where the check stands: what the check has forgotten of the way it does not come back to. -/
def Graph.Follows (g : Graph) (t : TypeId) (k : Nat) (w : Stand) : Prop :=
  ∃ seen, g.Walks t ⟨w.type, w.level, seen⟩ ∧ k ≤ seen.length ∧ ∀ x ∈ seen, x ∈ w.trail ∨ ¬g.Reaches w.type x

section Guarded

variable {g : Graph} {t u c v : TypeId} {w w' : Stand} {level : Int} {seen : List TypeId} {k : Nat}

theorem Graph.Walks.reaches (h : g.Walks t w) : g.Reaches t w.type := by
  induction h with
  | refl => exact .refl
  | tail _ henters ih =>
    cases henters with
    | intro hu => exact ih.tail hu

theorem Graph.Walks.on (h : g.Walks t ⟨c, level, seen⟩) (hturns : ¬g.Turns c) (hv : v ∈ (g.node c).links) :
    g.Walks t ⟨v, (g.node c).below level, c :: seen⟩ ∧ ∀ x ∈ c :: seen, ¬g.Reaches v x := by
  have hgone (x : TypeId) (hx : x ∈ c :: seen) : ¬g.Reaches v x := fun hback =>
    hturns (TransGen.head' hv (hback.trans (h.reaches_end hx)))
  exact ⟨h.tail (.intro hv fun hold => hgone v hold .refl), hgone⟩

theorem Graph.Guarded.walks_closure (hg : g.Guarded t) (ordered : g.Ordered)
    (h : g.Walks t ⟨u, level, seen⟩) {of : TypeId} (hmeant : (g.node u).meant = some of)
    (hc : g.closure u = .ok c) : ¬g.Turns c ∧ ∃ more, g.Walks t ⟨c, level, more⟩ ∧ seen.length < more.length := by
  induction u using Nat.strongRecOn generalizing of seen with
  | ind u ih =>
    have hlink : of ∈ (g.node u).links := by
      rw [Node.links_of_meant hmeant]
      exact List.mem_singleton_self of
    have hturns := hg.synonym h.reaches hmeant
    have hnew : of ∉ u :: seen := fun hold => hturns (TransGen.tail' (h.reaches_end hold) hlink)
    have hof : g.Walks t ⟨of, level, u :: seen⟩ := by
      have hnext := h.tail (.intro hlink hnew)
      rwa [Node.below_of_meant hmeant] at hnext
    have hclosure := closure_of_meant hmeant hc
    rcases hmeant' : (g.node of).meant with _ | of'
    · cases (closure_self hmeant').symm.trans hclosure
      exact ⟨hturns, u :: seen, hof, Nat.lt_succ_self _⟩
    · have hlt : of < u := ordered u of (Node.meant_mem_parts hmeant)
      obtain ⟨hturns', more, hmore, hlonger⟩ := ih of hlt hof hmeant' hclosure
      exact ⟨hturns', more, hmore, Nat.lt_of_succ_lt hlonger⟩

theorem Graph.Guarded.follows_probe (hg : g.Guarded t) (ordered : g.Ordered) (h : g.Follows t k w)
    (hprobes : g.Probes w w') (hoff' : w'.type ∉ w'.trail) : g.Follows t (k + 1) w' := by
  obtain ⟨seen, hwalks, hlong, hseen⟩ := h
  cases hprobes with
  | @intro c u hoff hc hu =>
    dsimp only at hoff' ⊢
    rcases hmeant : (g.node w.type).meant with _ | of
    · cases (closure_self hmeant).symm.trans hc
      by_cases harray : ∃ element axes, g.node w.type = .array element axes
      · obtain ⟨element, axes, hnode⟩ := harray
        obtain ⟨hnext, hgone⟩ := hwalks.on (hg.array hwalks.reaches hnode) hu
        exact ⟨_, hnext, Nat.succ_le_succ hlong, fun x hx => .inr (hgone x hx)⟩
      -- the check has kept its trail, so what it has not come through the walk has not either
      have hkept (trail : List TypeId) : (g.node w.type).kept trail = trail := by
        generalize g.node w.type = n at harray
        cases n with
        | array element axes => exact absurd ⟨element, axes, rfl⟩ harray
        | _ => rfl
      rw [hkept] at hoff' ⊢
      have hnew : u ∉ w.type :: seen := fun hold => by
        rcases List.mem_cons.1 hold with rfl | hold
        · exact hoff' List.mem_cons_self
        · rcases hseen u hold with htrail | hgone
          · exact hoff' (List.mem_cons_of_mem _ htrail)
          · exact hgone (.single hu)
      refine ⟨_, hwalks.tail (.intro hu hnew), Nat.succ_le_succ hlong, fun x hx => ?_⟩
      rcases List.mem_cons.1 hx with rfl | hx
      · exact .inl List.mem_cons_self
      · exact (hseen x hx).imp (fun htrail => List.mem_cons_of_mem _ htrail)
          fun hgone hback => hgone (ReflTransGen.head hu hback)
    · obtain ⟨hturns, more, hmore, hlonger⟩ := hg.walks_closure ordered hwalks hmeant hc
      obtain ⟨hnext, hgone⟩ := hmore.on hturns hu
      exact ⟨_, hnext, Nat.succ_le_succ (Nat.le_trans hlong (Nat.le_of_lt hlonger)),
        fun x hx => .inr (hgone x hx)⟩

theorem Graph.Guarded.follows (hg : g.Guarded t) (ordered : g.Ordered) (htour : g.Tour k (.start t) w)
    (hoff : w.type ∉ w.trail) : g.Follows t k w := by
  induction k generalizing w with
  | zero =>
    cases htour
    exact ⟨[], .refl, Nat.le_refl _, fun x hx => by cases hx⟩
  | succ k ih =>
    obtain ⟨v, hbefore, hprobes⟩ := htour.last
    exact hg.follows_probe ordered (ih hbefore hprobes.entered) hprobes hoff

theorem Graph.Guarded.walks_of_meets {limits : Limits} {l : Exceeded} (hg : g.Guarded t) (ordered : g.Ordered)
    (htour : g.Tour k (.start t) w) (hmeets : g.Meets limits w l) :
    ∃ w', g.Walks t w' ∧ (g.node w'.type).exceeds limits w'.level l = true := by
  obtain ⟨hoff, c, hc, hexceeds⟩ := hmeets
  obtain ⟨seen, hwalks, -, -⟩ := hg.follows ordered htour hoff
  rcases hmeant : (g.node w.type).meant with _ | of
  · cases (closure_self hmeant).symm.trans hc
    exact ⟨_, hwalks, hexceeds⟩
  · obtain ⟨-, more, hmore, -⟩ := hg.walks_closure ordered hwalks hmeant hc
    exact ⟨_, hmore, hexceeds⟩

theorem Sound.tour_length {s : Types} (hs : s.Sound) (ht : s.Usable t) (hg : s.graph.Guarded t)
    (htour : s.graph.Tour k (.start t) w) : k ≤ s.graph.nodes.size := by
  cases k with
  | zero => exact Nat.zero_le _
  | succ k =>
    obtain ⟨v, hbefore, hprobes⟩ := htour.last
    obtain ⟨seen, hwalks, hlong, -⟩ := hg.follows hs.graph.ordered hbefore hprobes.entered
    have hthere (x : TypeId) (hx : x ∈ v.type :: seen) : x < s.graph.nodes.size := by
      obtain ⟨w', hw', rfl⟩ := hwalks.cut hx
      exact hs.lt_of_reaches hw'.reaches ht.1
    have hshort := length_le_of_nodup hwalks.nodup hthere
    exact Nat.le_trans (Nat.succ_le_succ hlong) hshort

end Guarded

/-- What the check of a type tells. It passes just where all its tours are short and meet nothing that goes
over a limit, and its faults say what it met, or that it gave up on a tour. It never passes where a walk goes
over a limit; what it finds too large or with too many parts a walk finds; and where the types are guarded and
not too many it does not give up, and goes over a limit just where a walk does. -/
structure Measures (g : Graph) (limits : Limits) (t : TypeId) : Prop where
  passes : g.checkLimits limits t = .ok () ↔
    ∀ k w, g.Tour k (.start t) w → k < longestWalk ∧ ∀ l, ¬g.Meets limits w l
  fails {e : Fault} (h : g.checkLimits limits t = .error e) :
    (∃ l, e = .limit l ∧ ∃ k w, g.Tour k (.start t) w ∧ g.Meets limits w l) ∨
      e = .misuse .endless ∧ ∃ w, g.Tour longestWalk (.start t) w
  catches {w : Stand} {l : Exceeded} (hw : g.Walks t w)
    (hl : (g.node w.type).exceeds limits w.level l = true) : g.checkLimits limits t ≠ .ok ()
  sizes {l : Exceeded} (h : g.checkLimits limits t = .error (.limit l)) (hl : l ≠ .typeDepth) :
    ∃ w, g.Walks t w ∧ (g.node w.type).exceeds limits w.level l = true
  guarded (hg : g.Guarded t) (hfew : g.nodes.size < longestWalk) :
    g.checkLimits limits t ≠ .error (.misuse .endless) ∧
      ((∃ l, g.checkLimits limits t = .error (.limit l)) ↔
        ∃ w l, g.Walks t w ∧ (g.node w.type).exceeds limits w.level l = true)

theorem Sound.measures {s : Types} (hs : s.Sound) {t : TypeId} (ht : s.Usable t) (limits : Limits) :
    Measures s.graph limits t := by
  have hcatches {w : Stand} {l : Exceeded} (hw : s.graph.Walks t w)
      (hl : (s.graph.node w.type).exceeds limits w.level l = true) :
      s.graph.checkLimits limits t ≠ .ok () := fun hok => by
    obtain ⟨k, w', htour, hmeets⟩ := hs.meets_of_walks ht hw hl
    exact ((hs.checkLimits_ok_iff ht).1 hok k w' htour).2 l hmeets
  have hlimit {l : Exceeded} (h : s.graph.checkLimits limits t = .error (.limit l)) :
      ∃ k w, s.graph.Tour k (.start t) w ∧ s.graph.Meets limits w l := by
    rcases hs.checkLimits_error ht h with ⟨l', hl', hmet⟩ | ⟨hendless, -⟩
    · cases hl'
      exact hmet
    · cases hendless
  refine ⟨hs.checkLimits_ok_iff ht, hs.checkLimits_error ht, hcatches, fun h hl => ?_, fun hg hfew => ?_⟩
  · obtain ⟨k, w, htour, hmeets⟩ := hlimit h
    exact Graph.walks_of_meets htour hmeets hl
  have hends : s.graph.checkLimits limits t ≠ .error (.misuse .endless) := fun h => by
    rcases hs.checkLimits_error ht h with ⟨l, hl, -⟩ | ⟨-, w, htour⟩
    · cases hl
    · exact Nat.lt_irrefl _ (Nat.lt_of_lt_of_le hfew (hs.tour_length ht hg htour))
  refine ⟨hends, fun hfails => ?_, fun hfinds => ?_⟩
  · obtain ⟨l, h⟩ := hfails
    obtain ⟨k, w, htour, hmeets⟩ := hlimit h
    obtain ⟨w', hw', hexceeds⟩ := hg.walks_of_meets hs.graph.ordered htour hmeets
    exact ⟨w', l, hw', hexceeds⟩
  · obtain ⟨w, l, hw, hl⟩ := hfinds
    rcases hcheck : s.graph.checkLimits limits t with e | _
    · rcases hs.checkLimits_error ht hcheck with ⟨l', rfl, -⟩ | ⟨rfl, -⟩
      · exact ⟨l', rfl⟩
      · exact absurd hcheck hends
    · exact absurd hcheck (hcatches hw hl)

theorem Graph.Walks.level_le_inner {g : Graph} {t : TypeId} {w : Stand} (h : g.Walks t w) :
    w.level ≤ 1 + (List.range g.nodes.size).countP fun u => !(g.node u).links.isEmpty := by
  have hinner (x : TypeId) (hx : x ∈ w.trail) :
      x ∈ (List.range g.nodes.size).filter fun u => !(g.node u).links.isEmpty := by
    obtain ⟨u, hu⟩ : ∃ u, u ∈ (g.node x).links := by
      obtain ⟨u, hu, -⟩ := TransGen.head'_iff.1 (h.leads hx)
      exact ⟨u, hu⟩
    refine List.mem_filter.2 ⟨List.mem_range.2 (lt_size_of_link hu), ?_⟩
    rw [Bool.not_eq_true', List.isEmpty_eq_false_iff]
    exact List.ne_nil_of_mem hu
  have hshort := ((List.nodup_cons.1 h.nodup).2.subperm hinner).length_le
  rw [← List.countP_eq_length_filter] at hshort
  have hlevel := h.level_le
  omega

/-- Whether nothing leads to an array, and there are no synonyms. -/
def Graph.apart (g : Graph) : Bool :=
  (List.range g.nodes.size).all fun u =>
    match g.node u with
    | .array .. => (List.range g.nodes.size).all fun x => !(g.node x).links.contains u
    | .synonym .. => false
    | _ => true

theorem Graph.guarded_of_apart {g : Graph} (h : g.apart = true) (t : TypeId) : g.Guarded t := by
  have hat {u : TypeId} (hne : g.node u ≠ .int) := List.all_eq_true.1 h u (List.mem_range.2 (lt_size_of_node hne))
  refine ⟨fun {u element axes} _ hnode hturns => ?_, fun {u of} _ hmeant => ?_⟩
  · have hnone := hat (u := u) (by rw [hnode]; simp)
    rw [hnode] at hnone
    obtain ⟨x, -, hx⟩ := TransGen.tail'_iff.1 hturns
    have hoff := List.all_eq_true.1 hnone x (List.mem_range.2 (lt_size_of_link hx))
    rw [Bool.not_eq_true', ← Bool.not_eq_true, List.contains_iff_mem] at hoff
    exact absurd hx hoff
  · rcases hnode : g.node u with _ | _ | _ | _ | _ | _ | _ | _ | ⟨name, of'⟩
    case synonym =>
      have hnone := hat (u := u) (by rw [hnode]; simp)
      rw [hnode] at hnone
      cases hnone
    all_goals
      rw [hnode] at hmeant
      cases hmeant

end Chalkboard.Types

namespace Chalkboard.Session

open Chalkboard.Types (TypeId Limits Measures Stand)

/-- The check of any type of a program, under any limits, comes to an end and measures walks in this sense; the
types of variables are among those types. -/
theorem type_check_measures_walks {saved : Option Saved} {setting : Reading.Setting} {text : String}
    {p : Syntax.Program} {types : Types} (hsaved : Reached saved) (hopens : Opens saved setting text p types) :
    (∀ d ∈ p.declarations, types.Usable d.type) ∧
      ∀ limits t, types.Usable t → Measures types.graph limits t := by
  have hsound := (hopens.ready hsaved.ready).1.sound
  exact ⟨hopens.usable hsaved.fit, fun limits t ht => hsound.measures ht limits⟩

/-- Lists in an array, whose cells lead to one another. -/
def shelvedLists : String :=
  "type cell = tuple\nv: int\nnext: pointer of cell\nend tuple\nvar y: cell\nvar x: array [2] of cell\nskip\n"

/-- The types of the lists go as deep as three levels. -/
theorem shelvedLists_measured :
    ∃ p types t, Opens none {} shelvedLists p types ∧ types.Usable t ∧
      (∀ w l, types.graph.Walks t w → (types.graph.node w.type).exceeds {} w.level l = false) ∧
      ∃ w l, types.graph.Walks t w ∧
        (types.graph.node w.type).exceeds { typeDepth := some 2 } w.level l = true := by
  have hreads : reads shelvedLists (fun p types => p.declarations.any fun d =>
      types.graph.apart && decide (types.graph.nodes.size < Types.longestWalk) &&
        decide (types.graph.checkLimits {} d.type = .ok ()) &&
        decide (types.graph.checkLimits { typeDepth := some 2 } d.type = .error (.limit .typeDepth))) =
      true := by
    decide +kernel
  obtain ⟨p, types, hopens, hcheck⟩ := of_reads hreads
  obtain ⟨d, hd, hcheck⟩ := List.any_eq_true.1 hcheck
  simp only [Bool.and_eq_true, decide_eq_true_eq] at hcheck
  obtain ⟨⟨⟨hapart, hfew⟩, hpasses⟩, hfails⟩ := hcheck
  obtain ⟨husable, hmeasures⟩ := type_check_measures_walks .nothing hopens
  have hguarded := Types.Graph.guarded_of_apart hapart d.type
  refine ⟨p, types, d.type, hopens, husable d hd, fun w l hw => ?_, ?_⟩
  · refine Bool.eq_false_iff.2 fun hl => ?_
    exact (hmeasures {} d.type (husable d hd)).catches hw hl hpasses
  · exact ((hmeasures _ d.type (husable d hd)).guarded hguarded hfew).2.1 ⟨_, hfails⟩

/-- A tuple that leads back to itself by way of an array. -/
def shelvedTuple : String := "type t = tuple\na: array [2] of pointer of t\nend tuple\nvar x: t\nskip\n"

/-- The check goes round through the array until it is too deep, where no walk goes over a limit. -/
theorem shelvedTuple_too_deep :
    ∃ p types t, Opens none {} shelvedTuple p types ∧ types.Usable t ∧
      types.graph.checkLimits {} t = .error (.limit .typeDepth) ∧
      ∀ w l, types.graph.Walks t w → (types.graph.node w.type).exceeds {} w.level l = false := by
  have hreads : reads shelvedTuple (fun p types => p.declarations.any fun d =>
      decide (types.graph.checkLimits {} d.type = .error (.limit .typeDepth)) &&
        decide ((List.range types.graph.nodes.size).countP (fun u => !(types.graph.node u).links.isEmpty) ≤ 3) &&
        (List.range types.graph.nodes.size).all fun u =>
          [.arrayDimensions, .arraySize, .tupleSize].all fun l => !(types.graph.node u).exceeds {} 1 l) =
      true := by
    decide +kernel
  obtain ⟨p, types, hopens, hcheck⟩ := of_reads hreads
  obtain ⟨d, hd, hcheck⟩ := List.any_eq_true.1 hcheck
  simp only [Bool.and_eq_true, decide_eq_true_eq, List.all_eq_true, List.mem_range, Bool.not_eq_true'] at hcheck
  obtain ⟨⟨hfails, hinner⟩, hsizes⟩ := hcheck
  have hready := (hopens.ready Reached.nothing.ready).1
  have husable := hopens.usable Reached.nothing.fit d hd
  refine ⟨p, types, d.type, hopens, husable, hfails, fun w l hw => ?_⟩
  have hthere := hready.sound.lt_of_reaches hw.reaches husable.1
  cases l with
  | typeDepth =>
    have hlevel := hw.level_le_inner
    change Types.exceeds (some 5) w.level = false
    refine Types.exceeds_eq_false.2 fun most hmost => ?_
    cases hmost
    omega
  | arrayDimensions => exact hsizes w.type hthere .arrayDimensions (by simp)
  | arraySize => exact hsizes w.type hthere .arraySize (by simp)
  | tupleSize => exact hsizes w.type hthere .tupleSize (by simp)
  | _ => rfl

end Chalkboard.Session
