import Chalkboard.Proofs.DeclaredTypes
import Mathlib.Data.List.Perm.Basic

/-! Whether the order of variable declarations matters. To declare a variable settles targets of types that
other variables share, so what a later declaration finds depends on what came before it. The types that
variables get never depend on that. Whether a program is read at all can, but then settling came to an array
that was not told the trail, or went round in a circle; and for types in layers it does neither. -/

namespace Chalkboard.Reading

open Effects Chalkboard.Types
open Syntax (Declaration Program)

/-- What is said of a variable, apart from the line it stands on. -/
def wordsOf (v : Announced) : String × TypeForm := (v.1.name.text, v.2)

/-- The same variables are announced, perhaps in another order. -/
def Reordered (a a' : Announcement) : Prop :=
  (a'.announced.map wordsOf).Perm (a.announced.map wordsOf)

/-- A type as it is written that can be settled whenever a variable of it is declared: an array ends in a
type that leads to nothing open, and the way there is not too long to be gone. -/
structure TypeForm.Tame (s : Types) (form : TypeForm) : Prop where
  array : form.hasArray = true → ∀ t < s.graph.nodes.size,
    s.registry.types.lookup form.base = some (.settled t) → s.graph.opens t = []
  short : s.graph.nodes.size + form.depth ≤ settleDepth

instance (s : Types) (form : TypeForm) : Decidable (form.Tame s) :=
  decidable_of_iff (_ ∧ _) ⟨fun ⟨harray, hshort⟩ => TypeForm.Tame.mk harray hshort,
    fun h => ⟨h.array, h.short⟩⟩

/-- Types in layers, and variables over them, that can be declared in every order. -/
structure Tame (s : Types) (layer : TypeId → Nat) (announced : List Announced) : Prop where
  layered : s.Layered layer
  small : s.graph.nodes.size ≤ settleDepth
  forms : ∀ v ∈ announced, v.2.Tame s

instance (s : Types) (layer : TypeId → Nat) (announced : List Announced) :
    Decidable (Tame s layer announced) :=
  decidable_of_iff (_ ∧ _ ∧ _) ⟨fun ⟨hlayered, hsmall, hforms⟩ => Tame.mk hlayered hsmall hforms,
    fun h => ⟨h.layered, h.small, h.forms⟩⟩

section Calm

variable {s₀ s s' : Types} {layer : TypeId → Nat} {form : TypeForm} {t : TypeId}

theorem make_ordered (hnamed : ∀ t, s.Registered t → t < s.graph.nodes.size) (ordered : s.graph.Ordered)
    {target : Target} (h : make form s = (.ok target, s')) :
    s'.graph.Ordered ∧ ∀ t, target = .settled t → t < s'.graph.nodes.size := by
  have hadd {s₁ : Types} {n : Node} (hs₁ : s₁.graph.Ordered)
      (hparts : ∀ u ∈ n.parts, u < s₁.graph.nodes.size) :
      (s₁.graph.add n).2.Ordered ∧
        ∀ t, Target.settled s₁.graph.nodes.size = .settled t → t < (s₁.graph.add n).2.nodes.size := by
    refine ⟨fun t u hu => ?_, fun t ht => ?_⟩
    · by_cases heq : t = s₁.graph.nodes.size
      · rw [heq, Graph.node_add_self] at hu
        rw [heq]
        exact hparts u hu
      · rw [Graph.node_add_ne heq] at hu
        exact hs₁ t u hu
    · cases ht
      rw [Graph.size_add]
      exact Nat.lt_succ_self _
  refine make_induct (P := fun _ target s' => s'.graph.Ordered ∧
    ∀ t, target = .settled t → t < s'.graph.nodes.size) ?_ ?_ ?_ h
  · intro name
    exact ⟨ordered, fun t ht => hnamed t ⟨name, mem_of_lookup (target_settled ht)⟩⟩
  · rintro of target₁ s₁ ⟨hs₁, -⟩
    exact hadd hs₁ fun u hu => by cases hu
  · rintro spans of element s₁ ⟨hs₁, helement⟩
    refine hadd hs₁ fun u hu => ?_
    rw [List.mem_singleton.1 hu]
    exact helement element rfl

theorem calm_make (hs₀ : s₀.Neat) (h : Calm s₀ layer s) {target : Target}
    (hmake : make form s = (.ok target, s')) : Calm s₀ layer s' := by
  have hext := make_extends form s
  have hnode := (make_node form s).2
  rw [hmake] at hext hnode
  dsimp only at hext hnode
  have hnamed (t : TypeId) (ht : s.Registered t) : t < s.graph.nodes.size :=
    Nat.lt_of_lt_of_le (hs₀.named t (h.ext.registered.1 ht)).1 h.ext.size
  refine ⟨h.ext.trans hext, (make_ordered hnamed h.ordered hmake).1, fun t ht o ho hopen u hmeans => ?_⟩
  have hlt : o < s.graph.nodes.size := by
    refine Nat.lt_of_le_of_lt (hs₀.le_of_reaches (hs₀.mem_opens.1 ho).1) ?_
    exact Nat.lt_of_lt_of_le (hs₀.named t ht).1 h.ext.size
  rw [hnode o hlt] at hopen
  exact (h.steady t ht o ho hopen u hmeans).imp hext.closed id

theorem calm_settle (hs₀ : s₀.Neat) (hl : s₀.Layered layer) (hknown : s₀.Known) (h : Calm s₀ layer s)
    (hspells : Spells s form t) (harray : form.hasArray = false) (depth : Nat)
    (hdepth : s₀.graph.nodes.size + form.depth ≤ depth) :
    ∃ s', settleFrom depth t none s = (.ok (), s') ∧ Calm s₀ layer s' := by
  induction hspells generalizing depth with
  | named hlookup =>
    have hname := h.ext.registered.1 ⟨_, mem_of_lookup hlookup⟩
    exact h.settle_named hs₀ hl hknown hname hdepth
  | pointer hnode _ ih =>
    rename_i of t u _
    have hfewer : s₀.graph.nodes.size + of.depth + 1 ≤ depth := hdepth
    obtain _ | depth := depth
    · exact absurd hfewer (Nat.not_succ_le_zero _)
    rw [settleFrom_succ, bind_apply, settleSelf_apply, Graph.visits, hnode]
    dsimp only
    rw [inTurn_one, settleVisit_apply]
    split
    · exact ih harray depth (Nat.le_of_succ_le_succ hfewer)
    · exact ⟨s, rfl, h⟩
  | array => cases harray

theorem calm_declare (hs₀ : s₀.Neat) (hl : s₀.Layered layer) (hknown : s₀.Known) (h : Calm s₀ layer s)
    {v : Announced} (hmakes : v.2.Makes s₀) (htame : v.2.Tame s₀) :
    ∃ d s', declare v s = (.ok d, s') ∧ Calm s₀ layer s' := by
  obtain ⟨t, s₁, hmake, hspells⟩ := make_spells ((TypeForm.makes_iff h.ext).2 hmakes)
  have hs₁ := calm_make hs₀ h hmake
  rw [declare_apply, hmake]
  dsimp only
  rw [variableType_settled]
  by_cases hseen : s₁.graph.hasDeferrals t = true
  · have hplain : v.2.hasArray = false := by
      by_contra hhas
      have hbase (u : TypeId) (hu : s₁.registry.types.lookup v.2.base = some (.settled u)) :
          s₁.graph.Closed u := by
        rw [hs₁.ext.registry] at hu
        have hlt := (hs₀.named u ⟨_, mem_of_lookup hu⟩).1
        exact hs₀.closed_of_opens hs₁.ext hlt (htame.array (by simpa using hhas) u hlt hu)
      rw [(hspells.closed hbase).unseen] at hseen
      cases hseen
    obtain ⟨s', hsettle, hcalm⟩ := calm_settle hs₀ hl hknown hs₁ hspells hplain settleDepth htame.short
    rw [if_pos hseen, settle, hsettle]
    exact ⟨_, s', rfl, hcalm⟩
  · rw [if_neg hseen]
    exact ⟨_, s₁, rfl, hs₁⟩

theorem calm_declareEach (hs₀ : s₀.Neat) (hl : s₀.Layered layer) (hknown : s₀.Known)
    (vs : List Announced) (hmakes : ∀ v ∈ vs, v.2.Makes s₀) (htame : ∀ v ∈ vs, v.2.Tame s₀)
    (h : Calm s₀ layer s) :
    ∃ ds s', declareEach vs s = (.ok ds, s') ∧ Calm s₀ layer s' := by
  induction vs generalizing s with
  | nil => exact ⟨[], s, rfl, h⟩
  | cons v vs ih =>
    obtain ⟨d, s₁, hfirst, hs₁⟩ := calm_declare hs₀ hl hknown h (hmakes v List.mem_cons_self)
      (htame v List.mem_cons_self)
    obtain ⟨ds, s', hrest, hs'⟩ := ih (fun w hw => hmakes w (List.mem_cons_of_mem _ hw))
      (fun w hw => htame w (List.mem_cons_of_mem _ hw)) hs₁
    rw [declareEach_cons, hfirst]
    dsimp only
    rw [hrest]
    exact ⟨_, s', rfl, hs'⟩

end Calm

section Order

variable {setting : Setting} {text : String} {a a' : Announcement} {s₀ s s' : Types} {p p' : Program}

theorem declareAnnounced_ok (h : declareAnnounced a s₀ = (.ok p, s)) :
    Extends s₀ s ∧ ∃ s₁, declareEach a.announced s₀ = (.ok p.declarations, s₁) ∧ Extends s₁ s := by
  obtain ⟨p₁, s₁, hdeclare, hrest⟩ := bind_ok h
  obtain ⟨_, s₂, hsettle, hlast⟩ := bind_ok hrest
  cases hlast
  have hlater := settleAll_later s₁
  rw [hsettle] at hlater
  rw [declareUnsettled_apply] at hdeclare
  have hext := declareEach_extends a.announced s₀
  rcases hds : declareEach a.announced s₀ with ⟨e | ds, s'⟩
  · rw [hds] at hdeclare
    cases hdeclare
  · rw [hds] at hdeclare hext
    cases hdeclare
    exact ⟨hext.trans hlater.extends, s', rfl, hlater.extends⟩

def Declares (s : Types) (words : String × TypeForm) (d : Declaration) : Prop :=
  d.name = words.1 ∧ Spells s words.2 d.type

/-- A program that is read, as its announcement: its types are closed, and each variable has a type that is
built as it was written. -/
structure Outcome (a : Announcement) (s₀ : Types) (p : Program) (s : Types) : Prop where
  ext : Extends s₀ s
  closed : ∀ t, s₀.Registered t → s.graph.Closed t
  declares : List.Forall₂ (Declares s) (a.announced.map wordsOf) p.declarations

theorem outcome_of_read (hannounced : readAnnounced setting text {} = (.ok a, s₀))
    (hread : readProgram setting text {} = (.ok p, s)) : Outcome a s₀ p s := by
  obtain ⟨-, hshut, hvariables⟩ := readProgram_shut hread
  rw [(readProgram_of_announced sound_basic hannounced).2] at hread
  obtain ⟨hext, s₁, hdeclare, hext₁⟩ := declareAnnounced_ok hread
  refine ⟨hext, fun t ht => (hshut t (hext.registered.2 ht)).closed hshut, ?_⟩
  have hentries := (readAnnounced_neat hannounced).entries
  have hspells := declareEach_spells a.announced hentries hdeclare hext₁ fun d hd =>
    (hvariables d hd).2.closed hshut
  refine List.forall₂_map_left_iff.2 (hspells.imp fun v d h => ⟨?_, h.2⟩)
  rw [Declaration.name, h.1]
  rfl

theorem Outcome.makes (h : Outcome a s₀ p s) (horder : Reordered a a') :
    ∀ v ∈ a'.announced, v.2.Makes s₀ := by
  intro v hv
  have hmakes := (List.forall₂_and_left (p := fun words => words.2.Makes s₀) _ _).1
    (h.declares.imp fun words d hd => ⟨(TypeForm.makes_iff h.ext).1 hd.2.makes, hd⟩)
  exact hmakes.1 (wordsOf v) (horder.mem_iff.1 (List.mem_map_of_mem hv))

theorem known_of_closed (hs₀ : s₀.Neat) (h : Extends s₀ s)
    (hclosed : ∀ t, s₀.Registered t → s.graph.Closed t) : s₀.Known := by
  intro t ht o ho
  obtain ⟨hreach, hopen⟩ := hs₀.mem_opens.1 ho
  have hlt {u : TypeId} (hu : s₀.graph.Reaches t u) : u < s₀.graph.nodes.size :=
    Nat.lt_of_le_of_lt (hs₀.le_of_reaches hu) (hs₀.named t ht).1
  have hends : s.graph.Closed o := by
    clear ho hopen
    induction hreach with
    | refl => exact hclosed t ht
    | tail hu hlink ih => exact h.link_closed (.refl s₀) (hlt hu) ih hlink
  obtain ⟨u, hmeans, -⟩ := h.node_settled (hlt hreach) hopen (hends o .refl).2
  exact ⟨u, hmeans⟩

theorem Outcome.same (hs₀ : s₀.Neat) (h : Outcome a s₀ p s) (h' : Outcome a' s₀ p' s')
    (horder : Reordered a a') :
    ∃ ds, ds.Perm p.declarations ∧
      List.Forall₂ (fun d d' => d.name = d'.name ∧ s.graph.Same d.type s'.graph d'.type) ds
        p'.declarations := by
  obtain ⟨ds, hds, hperm⟩ := List.perm_comp_forall₂ horder h.declares
  refine ⟨ds, hperm, ?_⟩
  have hdeclares := h'.declares
  generalize a'.announced.map wordsOf = words at hds hdeclares
  clear hperm
  generalize p'.declarations = ds' at hdeclares
  induction hds generalizing ds' with
  | nil =>
    cases hdeclares
    exact .nil
  | cons hd _ ih =>
    obtain _ | ⟨hd', hrest'⟩ := hdeclares
    refine .cons ⟨hd.1.trans hd'.1.symm, ?_⟩ (ih _ hrest')
    exact hd.2.same hs₀ h.ext h'.ext h.closed h'.closed hd'.2

theorem Tame.declareAnnounced (hs₀ : s₀.Neat) (ordered : s₀.graph.Ordered) (hknown : s₀.Known)
    {layer : TypeId → Nat} {announced : List Announced} (h : Tame s₀ layer announced)
    (hforms : ∀ v ∈ a.announced, v.2.Tame s₀) (hmakes : ∀ v ∈ a.announced, v.2.Makes s₀) :
    ∃ p s, declareAnnounced a s₀ = (.ok p, s) := by
  have hcalm : Calm s₀ layer s₀ := by
    refine ⟨.refl s₀, ordered, fun t _ o ho hopen => ?_⟩
    rw [(hs₀.mem_opens.1 ho).2] at hopen
    cases hopen
  obtain ⟨ds, s₁, hdeclare, hs₁⟩ := calm_declareEach hs₀ h.layered hknown a.announced hmakes hforms hcalm
  obtain ⟨s, hsettle⟩ := hs₁.settleAll hs₀ h.layered hknown h.small
  refine ⟨⟨a.types, a.procedures, ds, a.sentences⟩, s, ?_⟩
  rw [Reading.declareAnnounced, bind_apply, declareUnsettled_apply, hdeclare]
  dsimp only [Except.map]
  rw [bind_apply, hsettle]
  rfl

theorem declareAnnounced_stuck (hs₀ : s₀.Neat) (h : Outcome a s₀ p s) (horder : Reordered a a') :
    FailsAs Stuck (declareAnnounced a' s₀).1 := by
  have hdeclare := declareEach_stuck hs₀ h.ext h.closed a'.announced (h.makes horder) (.refl s₀)
  rw [declareAnnounced]
  refine FailsAs.bind_apply ?_ fun program s₁ hprogram => ?_
  · rw [declareUnsettled_apply]
    exact hdeclare.map
  · have hext := declareEach_extends a'.announced s₀
    rw [declareUnsettled_apply] at hprogram
    rw [(Prod.mk.inj hprogram).2] at hext
    exact (hs₀.settleAll_stuck h.ext h.closed hext).bind_apply fun _ _ _ => .ok program

/-- A program is seen to announce variables over types. -/
def announces (text : String) (words : List (String × TypeForm)) (types : Types)
    (check : Announcement → Bool) : Bool :=
  passes (readAnnounced {} text) {} fun a s₀ =>
    s₀.agrees types && a.announced.map wordsOf == words && check a

theorem of_announces {text : String} {words : List (String × TypeForm)} {types : Types}
    {check : Announcement → Bool} (h : announces text words types check = true) :
    ∃ a, readAnnounced {} text {} = (.ok a, types) ∧
      readProgram {} text {} = declareAnnounced a types ∧ a.announced.map wordsOf = words ∧
      check a = true := by
  obtain ⟨a, s₀, ha, hcheck⟩ := of_passes h
  simp only [Bool.and_eq_true, beq_iff_eq] at hcheck
  obtain ⟨⟨hagrees, hwords⟩, hcheck⟩ := hcheck
  rw [eq_of_agrees hagrees] at ha
  exact ⟨a, ha, (readProgram_of_announced sound_basic ha).2, hwords, hcheck⟩

/-- A program that is read announces its variables over types. Another may announce the same variables over
these types in some other order. If that is read too, every variable has the same type in both. If it is not,
settling came to an array that was not told the trail or went round in a circle. And it is read if the types
and variables are tame. -/
theorem order_of_declarations (hread : readProgram setting text {} = (.ok p, s)) :
    ∃ a s₀, readAnnounced setting text {} = (.ok a, s₀) ∧
      ∀ text' a', readAnnounced setting text' {} = (.ok a', s₀) → Reordered a a' →
        (∀ p' s', readProgram setting text' {} = (.ok p', s') →
          ∃ ds, ds.Perm p.declarations ∧
            List.Forall₂ (fun d d' => d.name = d'.name ∧ s.graph.Same d.type s'.graph d'.type) ds
              p'.declarations) ∧
        (∀ e s', readProgram setting text' {} = (.error e, s') →
          e = .misuse .noTrail ∨ e = .misuse .endless) ∧
        ∀ layer, Tame s₀ layer a.announced →
          ∃ p' s', readProgram setting text' {} = (.ok p', s') := by
  obtain ⟨a, s₀, hannounced⟩ := announced_of_read sound_basic hread
  refine ⟨a, s₀, hannounced, fun text' a' hannounced' horder => ?_⟩
  have hs₀ := readAnnounced_neat hannounced
  have houtcome := outcome_of_read hannounced hread
  obtain ⟨hsound, hread'⟩ := readProgram_of_announced sound_basic hannounced'
  refine ⟨fun p' s' hp' => ?_, fun e s' he => ?_, fun layer htame => ?_⟩
  · exact houtcome.same hs₀ (outcome_of_read hannounced' hp') horder
  · rw [hread'] at he
    exact declareAnnounced_stuck hs₀ houtcome horder e (by rw [he])
  · have hknown := known_of_closed hs₀ houtcome.ext houtcome.closed
    have hforms (v : Announced) (hv : v ∈ a'.announced) : v.2.Tame s₀ := by
      have hmem := horder.mem_iff.1 (List.mem_map_of_mem hv)
      obtain ⟨w, hw, heq⟩ := List.mem_map.1 hmem
      have hform : w.2 = v.2 := (Prod.mk.inj heq).2
      exact hform ▸ htame.forms w hw
    rw [hread']
    exact htame.declareAnnounced hs₀ hsound.graph.ordered hknown hforms (houtcome.makes horder)

/-- Variables over lists and their nodes. Nodes lead back to themselves. -/
def overLists (declarations : String) : String :=
  "type list = tuple\n first: pointer of node\nend tuple\n" ++
  "type node = tuple\n next: pointer of node\nend tuple\n" ++ declarations ++ "skip\n"

def listTypes : Types where
  graph := ⟨#[.int, .real, .bool, .char, .pointer (.deferred .near "node"),
    .tuple (some "list") [("first", 4)] (.int 1), .pointer (.deferred .near "node"),
    .tuple (some "node") [("next", 6)] (.int 1)]⟩
  registry := ⟨Registry.basic.types ++ [("list", .settled 5), ("node", .settled 7)], []⟩

def listLayer (t : TypeId) : Nat := if t = 4 ∨ t = 5 then 1 else 0

def listFirst : String := overLists "var xs: list\nvar here: pointer of node\n"

def listLast : String := overLists "var here: pointer of node\nvar xs: list\n"

/-- A list and a pointer to a node can be declared in either order, though the second of them finds other
targets open in each. -/
theorem lists_in_either_order :
    ∃ a a' p s p' s', readAnnounced {} listFirst {} = (.ok a, listTypes) ∧
      readAnnounced {} listLast {} = (.ok a', listTypes) ∧ Reordered a a' ∧
      readProgram {} listFirst {} = (.ok p, s) ∧ Tame listTypes listLayer a.announced ∧
      readProgram {} listLast {} = (.ok p', s') ∧
      ∃ ds, ds.Perm p.declarations ∧
        List.Forall₂ (fun d d' => d.name = d'.name ∧ s.graph.Same d.type s'.graph d'.type) ds
          p'.declarations := by
  have hfirst : announces listFirst [("xs", .named "list"), ("here", .pointer (.named "node"))] listTypes
      (fun a => passes (declareAnnounced a) listTypes (fun _ _ => true) &&
        decide (Tame listTypes listLayer a.announced)) = true := by decide +kernel
  have hlast : announces listLast [("here", .pointer (.named "node")), ("xs", .named "list")] listTypes
      (fun _ => true) = true := by decide +kernel
  obtain ⟨a, ha, hread, hwords, hcheck⟩ := of_announces hfirst
  obtain ⟨a', ha', -, hwords', -⟩ := of_announces hlast
  obtain ⟨hpasses, htame⟩ := Bool.and_eq_true_iff.1 hcheck
  obtain ⟨p, s, hp, -⟩ := of_passes hpasses
  rw [← hread] at hp
  have horder : Reordered a a' := by
    rw [Reordered, hwords, hwords']
    decide
  obtain ⟨a₁, s₁, ha₁, hother⟩ := order_of_declarations hp
  rw [ha] at ha₁
  cases ha₁
  obtain ⟨hsame, -, htold⟩ := hother listLast a' ha' horder
  obtain ⟨p', s', hp'⟩ := htold listLayer (of_decide_eq_true htame)
  exact ⟨a, a', p, s, p', s', ha, ha', horder, hp, of_decide_eq_true htame, hp', hsame p' s' hp'⟩

def arrayLast : String := overLists "var one: node\nvar row: array [2] of node\n"

def arrayFirst : String := overLists "var row: array [2] of node\nvar one: node\n"

/-- An array of nodes can be declared after a node, which settles what is behind both, but not before. -/
theorem array_before_its_elements :
    ∃ a a' p s s', readAnnounced {} arrayLast {} = (.ok a, listTypes) ∧
      readAnnounced {} arrayFirst {} = (.ok a', listTypes) ∧ Reordered a a' ∧
      readProgram {} arrayLast {} = (.ok p, s) ∧
      readProgram {} arrayFirst {} = (.error (.misuse .noTrail), s') := by
  have hlast : announces arrayLast
      [("one", .named "node"), ("row", .array (some [(0, 2)]) (.named "node"))] listTypes
      (fun a => passes (declareAnnounced a) listTypes (fun _ _ => true)) = true := by decide +kernel
  have hfirst : announces arrayFirst
      [("row", .array (some [(0, 2)]) (.named "node")), ("one", .named "node")] listTypes
      (fun a => fails (declareAnnounced a) listTypes (fun e _ => e == .misuse .noTrail)) = true := by
    decide +kernel
  obtain ⟨a, ha, hread, hwords, hpasses⟩ := of_announces hlast
  obtain ⟨a', ha', hread', hwords', hfails⟩ := of_announces hfirst
  obtain ⟨p, s, hp, -⟩ := of_passes hpasses
  obtain ⟨e, s', hp', he⟩ := of_fails hfails
  rw [← hread] at hp
  rw [← hread', eq_of_beq he] at hp'
  refine ⟨a, a', p, s, s', ha, ha', ?_, hp, hp'⟩
  rw [Reordered, hwords, hwords']
  decide

end Order

end Chalkboard.Reading
