import Chalkboard.Proofs.LayeredTypes

/-! What the declaration of a variable makes of the type that is written. In the end the type is built as
it is written, over the types with names; and as open targets are settled by name, these are the same
whatever was declared before. Only the way there can differ: settling may be asked of an array that is not
told the trail, or go round in a circle, but it can fail in no other way. -/

namespace Chalkboard.Types

open Effects Relation

/-- A type as a tree that is cut off somewhere. -/
inductive Unfolded where
  | cut
  | int
  | real
  | bool
  | char
  | unknown (name : String)
  | pointer (target : Unfolded)
  | array (element : Unfolded) (axes : List Axis)
  | tuple (name : Option String) (fields : List (String × Unfolded)) (size : Value)
  | enum (name : Option String) (constants : List (String × Nat))
  | synonym (name : Option String) (of : Unfolded)

def Graph.unfold (g : Graph) : Nat → TypeId → Unfolded
  | 0, _ => .cut
  | depth + 1, t =>
    match g.node t with
    | .int => .int
    | .real => .real
    | .bool => .bool
    | .char => .char
    | .pointer (.deferred _ name) => .unknown name
    | .pointer (.settled target) => .pointer (g.unfold depth target)
    | .array element axes => .array (g.unfold depth element) axes
    | .tuple name fields size => .tuple name (fields.map fun (f, u) => (f, g.unfold depth u)) size
    | .enum name constants => .enum name constants
    | .synonym name of => .synonym name (g.unfold depth of)

/-- Two types, each in its graph, are the same: they have the same tree, however deep one looks. -/
def Graph.Same (g : Graph) (t : TypeId) (g' : Graph) (t' : TypeId) : Prop :=
  ∀ depth, g.unfold depth t = g'.unfold depth t'

section Agree

variable {s₀ s s' : Types} {t u : TypeId}

theorem Graph.unfold_congr {g g' : Graph} {depth : Nat} (hnode : g'.node t = g.node t)
    (hlinks : ∀ u ∈ (g.node t).links, g.unfold depth u = g'.unfold depth u) :
    g.unfold (depth + 1) t = g'.unfold (depth + 1) t := by
  rw [unfold, unfold, hnode]
  rcases hcase : g.node t with
    _ | _ | _ | _ | ⟨target | _⟩ | ⟨element, axes⟩ | ⟨name, fields, size⟩ | _ | ⟨name, of⟩
  all_goals rw [hcase] at hlinks
  case pointer.settled => exact congrArg _ (hlinks target (List.mem_cons_self))
  case array => exact congrArg (Unfolded.array · axes) (hlinks element (List.mem_cons_self))
  case synonym => exact congrArg _ (hlinks of (List.mem_cons_self))
  case tuple =>
    refine congrArg (Unfolded.tuple name · size) (List.map_congr_left fun field hfield => ?_)
    exact congrArg (Prod.mk field.1) (hlinks field.2 (List.mem_map_of_mem hfield))

theorem Graph.Closed.link {g : Graph} (h : g.Closed t) (hu : u ∈ (g.node t).links) : g.Closed u :=
  fun w hw => h w (.head hu hw)

theorem Graph.closed_of_links {g : Graph} (ht : t < g.nodes.size) (hopen : (g.node t).isOpen = false)
    (h : ∀ u ∈ (g.node t).links, g.Closed u) : g.Closed t := by
  intro w hw
  rcases ReflTransGen.cases_head hw with rfl | ⟨u, hu, huw⟩
  · exact ⟨ht, hopen⟩
  · exact h u hu w huw

theorem Extends.node_closed (h : Extends s₀ s) (h' : Extends s₀ s') (ht : t < s₀.graph.nodes.size)
    (hclosed : s.graph.Closed t) :
    s'.graph.node t = s.graph.node t ∨ (s'.graph.node t).isOpen = true ∧ ∃ u, s'.Means t u := by
  have hopen := (hclosed t .refl).2
  by_cases hwas : (s₀.graph.node t).isOpen = true
  · obtain ⟨u, hmeans, hnode⟩ := h.node_settled ht hwas hopen
    rcases h'.node ht with hsame | ⟨u', hmeans', hnode'⟩
    · exact .inr ⟨by rwa [hsame], u, (h'.means hsame).2 hmeans⟩
    · rw [means_iff] at hmeans hmeans'
      cases hmeans.symm.trans hmeans'
      exact .inl (hnode'.trans hnode.symm)
  · have hplain : (s₀.graph.node t).isOpen = false := by simpa using hwas
    exact .inl (by rw [h.node_eq ht hplain, h'.node_eq ht hplain])

theorem Neat.link_lt (hs₀ : s₀.Neat) (h : Extends s₀ s) (ht : t < s₀.graph.nodes.size)
    (hu : u ∈ (s.graph.node t).links) : u < s₀.graph.nodes.size := by
  rcases h.node ht with hsame | ⟨w, hmeans, hnode⟩
  · rw [hsame] at hu
    exact Nat.lt_trans (hs₀.down t u hu) ht
  · rw [hnode] at hu
    rw [List.mem_singleton.1 hu]
    exact (hs₀.named w (hs₀.means_registered hmeans)).1

theorem Extends.link_closed (h : Extends s₀ s) (h' : Extends s₀ s') (ht : t < s₀.graph.nodes.size)
    (hclosed : s.graph.Closed t) (hu : u ∈ (s'.graph.node t).links) : s.graph.Closed u := by
  rcases h.node_closed h' ht hclosed with hsame | ⟨hopen, -⟩
  · exact hclosed.link (hsame ▸ hu)
  · rw [Graph.links_of_isOpen hopen] at hu
    cases hu

theorem Neat.same_of_closed (hs₀ : s₀.Neat) (h : Extends s₀ s) (h' : Extends s₀ s')
    (ht : t < s₀.graph.nodes.size) (hclosed : s.graph.Closed t) (hclosed' : s'.graph.Closed t) :
    s.graph.Same t s'.graph t := by
  intro depth
  induction depth generalizing t with
  | zero => rfl
  | succ depth ih =>
    have hnode : s'.graph.node t = s.graph.node t := by
      refine (h.node_closed h' ht hclosed).resolve_right fun ⟨hopen, _⟩ => ?_
      rw [(hclosed' t .refl).2] at hopen
      cases hopen
    refine Graph.unfold_congr hnode fun u hu => ?_
    exact ih (hs₀.link_lt h ht hu) (hclosed.link hu) (hclosed'.link (hnode ▸ hu))

end Agree

section Stuck

variable {s₀ s s₁ : Types} {t u : TypeId}

/-- How settling can fail where every name is known. -/
def Stuck (e : Fault) : Prop := e = .misuse .noTrail ∨ e = .misuse .endless

theorem inTurn_failsAs {α : Type} {P : Fault → Prop} {each : α → Nat → TypesM Unit} {depth : Nat}
    (hlater : ∀ a s, Later s (each a depth s).2) {xs : List α}
    (h : ∀ a ∈ xs, ∀ s₁, Extends s₀ s₁ → FailsAs P (each a depth s₁).1) (h₁ : Extends s₀ s₁) :
    FailsAs P (inTurn each xs depth s₁).1 := by
  induction xs generalizing s₁ with
  | nil => exact .ok ()
  | cons a rest ih =>
    rw [inTurn_cons]
    refine (h a List.mem_cons_self s₁ h₁).bind_apply fun _ s₂ hdone => ?_
    have hnext := hlater a s₁
    rw [hdone] at hnext
    exact ih (fun b hb => h b (List.mem_cons_of_mem _ hb)) (h₁.trans hnext.extends)

theorem settleSelf_stuck {told : Option (List TypeId)}
    (hknown : (s.graph.node t).isOpen = true → ∃ u, s.Means t u) :
    FailsAs Stuck (settleSelf t told s).1 := by
  rw [settleSelf_apply]
  rcases hnode : s.graph.node t with _ | _ | _ | _ | ⟨_ | ⟨side, name⟩⟩ | _ | _ | _ | _
  case pointer.deferred =>
    obtain ⟨u, side', name', hnode', hlookup⟩ := hknown (by rw [hnode]; rfl)
    cases hnode.symm.trans hnode'
    dsimp only
    rw [hlookup]
    exact .ok ()
  case array =>
    dsimp only
    split
    · exact .error (.inl rfl)
    · exact .ok ()
  all_goals exact .ok ()

theorem Neat.settleFrom_stuck (hs₀ : s₀.Neat) (h : Extends s₀ s) (depth : Nat) (t : TypeId)
    (told : Option (List TypeId)) (s₁ : Types) (h₁ : Extends s₀ s₁) (ht : t < s₀.graph.nodes.size)
    (hclosed : s.graph.Closed t) : FailsAs Stuck (settleFrom depth t told s₁).1 := by
  induction depth generalizing t told s₁ with
  | zero => exact .error (.inr rfl)
  | succ depth ih =>
    rw [settleFrom_succ]
    refine (settleSelf_stuck fun hopen => ?_).bind_apply fun _ s₂ hself => ?_
    · refine ((h.node_closed h₁ ht hclosed).resolve_left fun hsame => ?_).2
      rw [hsame, (hclosed t .refl).2] at hopen
      cases hopen
    · have hlater := settleSelf_later t told s₁
      rw [hself] at hlater
      refine inTurn_failsAs (settleVisit_later (settleFrom_later depth)) (fun visit hvisit s₃ h₃ => ?_)
        (h₁.trans hlater.extends)
      have hlink := visits_link hvisit
      rw [settleVisit_apply]
      split
      · exact ih visit.part visit.told s₃ h₃ (hs₀.link_lt h₁ ht hlink) (h.link_closed h₁ ht hclosed hlink)
      · exact .ok ()

theorem Neat.settleAll_stuck (hs₀ : s₀.Neat) (h : Extends s₀ s)
    (hclosed : ∀ t, s₀.Registered t → s.graph.Closed t) (h₁ : Extends s₀ s₁) :
    FailsAs Stuck (settleAll s₁).1 := by
  rw [settleAll, settleAllWithin_apply]
  refine inTurn_failsAs (settleEntry_later settleDepth) (fun entry hentry s₂ h₂ => ?_) h₁
  obtain ⟨t, heq⟩ := hs₀.entries entry (h₁.registry ▸ hentry)
  obtain ⟨name, _⟩ := entry
  obtain rfl := heq
  rw [settleEntry_settled, settleVisit_apply]
  split
  · have hname : s₀.Registered t := h₁.registered.1 ⟨name, hentry⟩
    exact hs₀.settleFrom_stuck h settleDepth t none s₂ h₂ (hs₀.named t hname).1 (hclosed t hname)
  · exact .ok ()

end Stuck

section Test

-- Sizes and bounds are values, whose equality is not decidable. So tuples are compared where their sizes are
-- whole numbers, and arrays not at all.

/-- Whether two types are seen to be built alike. -/
def Node.agrees : Node → Node → Bool
  | .int, .int | .real, .real | .bool, .bool | .char, .char => true
  | .pointer target, .pointer target' => target == target'
  | .tuple name fields (.int size), .tuple name' fields' (.int size') =>
    name == name' && fields == fields' && size == size'
  | .enum name constants, .enum name' constants' => name == name' && constants == constants'
  | .synonym name of, .synonym name' of' => name == name' && of == of'
  | _, _ => false

def agrees (s s' : Types) : Bool :=
  s.graph.nodes.toList.isEqv s'.graph.nodes.toList Node.agrees &&
    s.registry.types == s'.registry.types && s.registry.constants == s'.registry.constants &&
    s.standby.types == s'.standby.types && s.standby.constants == s'.standby.constants && s.side == s'.side

theorem Node.eq_of_agrees {n n' : Node} (h : n.agrees n' = true) : n = n' := by
  unfold agrees at h
  split at h <;> simp_all

theorem Node.eq_of_agree (ns ns' : List Node) (h : ns.isEqv ns' agrees = true) : ns = ns' := by
  induction ns generalizing ns' with
  | nil =>
    obtain _ | ⟨n', ns'⟩ := ns'
    · rfl
    · cases h
  | cons n ns ih =>
    obtain _ | ⟨n', ns'⟩ := ns'
    · cases h
    · obtain ⟨hfirst, hrest⟩ := Bool.and_eq_true_iff.1 h
      rw [eq_of_agrees hfirst, ih ns' hrest]

theorem eq_of_agrees {s s' : Types} (h : s.agrees s' = true) : s = s' := by
  obtain ⟨⟨⟨nodes⟩⟩, ⟨types, constants⟩, ⟨types', constants'⟩, side⟩ := s
  simp only [agrees, Bool.and_eq_true, beq_iff_eq] at h
  obtain ⟨⟨⟨⟨⟨hnodes, rfl⟩, rfl⟩, rfl⟩, rfl⟩, rfl⟩ := h
  obtain rfl : nodes = s'.graph.nodes.toList := Node.eq_of_agree _ _ hnodes
  rfl

end Test

end Chalkboard.Types

namespace Chalkboard.Reading

open Effects Chalkboard.Types
open Syntax (Declaration)

/-- The name that a type as it is written ends in. -/
def TypeForm.base : TypeForm → String
  | .named name => name
  | .pointer of => of.base
  | .array _ of => of.base

def TypeForm.hasArray : TypeForm → Bool
  | .named _ => false
  | .pointer of => of.hasArray
  | .array .. => true

/-- How many pointers and arrays stand before the name. -/
def TypeForm.depth : TypeForm → Nat
  | .named _ => 0
  | .pointer of => of.depth + 1
  | .array _ of => of.depth + 1

/-- A type as it is written can be made: its name is known, and the ends of its axes are numbers. -/
def TypeForm.Makes (s : Types) : TypeForm → Prop
  | .named name => ∃ t, s.registry.types.lookup name = some (.settled t)
  | .pointer of => of.Makes s
  | .array spans of => spans.isSome = true ∧ of.Makes s

/-- What is made of a type as it is written, at first. -/
inductive Written (s : Types) : TypeForm → Target → Prop
  | named (name : String) : Written s (.named name) (s.target name)
  | pointer {of : TypeForm} {target : Target} {t : TypeId} (hnode : s.graph.node t = .pointer target)
      (h : Written s of target) : Written s (.pointer of) (.settled t)
  | array {spans : List (Int × Int)} {of : TypeForm} {u t : TypeId}
      (hnode : s.graph.node t = .array u (spans.map axisAlong)) (h : Written s of (.settled u)) :
      Written s (.array (some spans) of) (.settled t)

/-- A type is built as it is written. -/
inductive Spells (s : Types) : TypeForm → TypeId → Prop
  | named {name : String} {t : TypeId} (h : s.registry.types.lookup name = some (.settled t)) :
      Spells s (.named name) t
  | pointer {of : TypeForm} {t u : TypeId} (hnode : s.graph.node t = .pointer (.settled u))
      (h : Spells s of u) : Spells s (.pointer of) t
  | array {spans : List (Int × Int)} {of : TypeForm} {t u : TypeId}
      (hnode : s.graph.node t = .array u (spans.map axisAlong)) (h : Spells s of u) :
      Spells s (.array (some spans) of) t

section Spells

variable {s₀ s s' : Types} {form : TypeForm} {t t' : TypeId}

theorem Spells.makes (h : Spells s form t) : form.Makes s := by
  induction h with
  | named h => exact ⟨_, h⟩
  | pointer _ _ ih => exact ih
  | array _ _ ih => exact ⟨rfl, ih⟩

theorem TypeForm.makes_iff (h : Extends s s') : form.Makes s' ↔ form.Makes s := by
  induction form with
  | named name => rw [TypeForm.Makes, TypeForm.Makes, h.registry]
  | pointer of ih => exact ih
  | array spans of ih => exact and_congr_right fun _ => ih

theorem Spells.extends (h : Extends s s') (hspells : Spells s form t) : Spells s' form t := by
  have hkeep {t : TypeId} {n : Node} (hnode : s.graph.node t = n) (hopen : n.isOpen = false)
      (hint : n ≠ .int) : s'.graph.node t = n := by
    rw [h.node_eq (Graph.lt_size_of_node (by rwa [hnode])) (by rwa [hnode]), hnode]
  induction hspells with
  | named hlookup =>
    refine .named ?_
    rwa [h.registry]
  | pointer hnode _ ih => exact .pointer (hkeep hnode rfl (by simp)) ih
  | array hnode _ ih => exact .array (hkeep hnode rfl (by simp)) ih

theorem Spells.closed (h : Spells s form t)
    (hbase : ∀ u, s.registry.types.lookup form.base = some (.settled u) → s.graph.Closed u) :
    s.graph.Closed t := by
  induction h with
  | named hlookup => exact hbase _ hlookup
  | pointer hnode _ ih | array hnode _ ih =>
    refine Graph.closed_of_links (Graph.lt_size_of_node ?_) (by rw [hnode]; rfl) fun w hw => ?_
    · simp [hnode]
    · rw [hnode] at hw
      rw [List.mem_singleton.1 hw]
      exact ih hbase

theorem Spells.same (hs₀ : s₀.Neat) (h : Extends s₀ s) (h' : Extends s₀ s')
    (hclosed : ∀ t, s₀.Registered t → s.graph.Closed t)
    (hclosed' : ∀ t, s₀.Registered t → s'.graph.Closed t) (hspells : Spells s form t)
    (hspells' : Spells s' form t') : s.graph.Same t s'.graph t' := by
  induction hspells generalizing t' with
  | named hlookup =>
    obtain ⟨hlookup'⟩ := hspells'
    rw [h'.registry, ← h.registry] at hlookup'
    cases hlookup.symm.trans hlookup'
    have hname := h.registered.1 ⟨_, mem_of_lookup hlookup⟩
    exact hs₀.same_of_closed h h' (hs₀.named _ hname).1 (hclosed _ hname) (hclosed' _ hname)
  | pointer hnode _ ih =>
    obtain _ | ⟨hnode', hof'⟩ := hspells'
    intro depth
    cases depth with
    | zero => rfl
    | succ depth =>
      rw [Graph.unfold, Graph.unfold, hnode, hnode']
      exact congrArg _ (ih hof' depth)
  | array hnode _ ih =>
    obtain _ | _ | ⟨hnode', hof'⟩ := hspells'
    intro depth
    cases depth with
    | zero => rfl
    | succ depth =>
      rw [Graph.unfold, Graph.unfold, hnode, hnode']
      exact congrArg (Unfolded.array · _) (ih hof' depth)

end Spells

section Make

variable {s₀ s s' s₁ : Types} {form : TypeForm} {t : TypeId}

theorem make_node (form : TypeForm) (s : Types) :
    s.graph.nodes.size ≤ (make form s).2.graph.nodes.size ∧
      ∀ t < s.graph.nodes.size, (make form s).2.graph.node t = s.graph.node t := by
  refine make_keeps (P := fun s' => s.graph.nodes.size ≤ s'.graph.nodes.size ∧
    ∀ t < s.graph.nodes.size, s'.graph.node t = s.graph.node t) ?_ form ⟨Nat.le_refl _, fun _ _ => rfl⟩
  rintro s₁ n ⟨hsize, hsame⟩
  refine ⟨?_, fun t ht => ?_⟩
  · rw [Graph.size_add]
    exact Nat.le_succ_of_le hsize
  · rw [Graph.node_add_ne (Nat.ne_of_lt (Nat.lt_of_lt_of_le ht hsize)), hsame t ht]

variable {name : String} {side : Side} {target : Target}

theorem Written.add (n : Node) (h : Written s form target) :
    Written { s with graph := (s.graph.add n).2 } form target := by
  have hkeep {t : TypeId} {n' : Node} (hnode : s.graph.node t = n') (hint : n' ≠ .int) :
      (s.graph.add n).2.node t = n' := by
    rw [Graph.node_add_ne (Nat.ne_of_lt (Graph.lt_size_of_node (by rwa [hnode]))), hnode]
  induction h with
  | named name => exact .named name
  | pointer hnode _ ih => exact .pointer (hkeep hnode (by simp)) ih
  | array hnode _ ih => exact .array (hkeep hnode (by simp)) ih

theorem make_written (h : make form s = (.ok target, s')) : Written s' form target := by
  refine make_induct (P := fun form target s' => Written s' form target) ?_ ?_ ?_ h
  · exact fun name => .named name
  · exact fun of target₁ s₁ hof => .pointer Graph.node_add_self (hof.add _)
  · exact fun spans of element s₁ hof => .array Graph.node_add_self (hof.add _)

theorem target_deferred (hentries : ∀ entry ∈ s.registry.types, ∃ t, entry.2 = .settled t)
    {name' : String} (h : s.target name = .deferred side name') :
    (s.home side).types.lookup name' = none := by
  unfold Types.target at h
  rcases hlookup : s.registry.types.lookup name with _ | entry
  · rw [hlookup] at h
    cases h
    rw [Types.home, if_pos (beq_self_eq_true _), hlookup]
  · rw [hlookup] at h
    obtain ⟨t, heq⟩ := hentries _ (mem_of_lookup hlookup)
    cases h.symm.trans heq

theorem target_settled (h : s.target name = .settled t) :
    s.registry.types.lookup name = some (.settled t) := by
  unfold Types.target at h
  rcases hlookup : s.registry.types.lookup name with _ | entry
  · rw [hlookup] at h
    cases h
  · rw [hlookup] at h
    exact congrArg some h

theorem Written.deferred (hentries : ∀ entry ∈ s.registry.types, ∃ t, entry.2 = .settled t)
    (h : Written s form (.deferred side name)) : (s.home side).types.lookup name = none := by
  generalize htarget : Target.deferred side name = target at h
  cases h with
  | named name' => exact target_deferred hentries htarget.symm
  | pointer => cases htarget
  | array => cases htarget

theorem Written.spells (hentries : ∀ entry ∈ s.registry.types, ∃ t, entry.2 = .settled t)
    (h : Extends s s') (hclosed : s'.graph.Closed t)
    (hwritten : Written s form (.settled t)) : Spells s' form t := by
  induction form generalizing t with
  | named name =>
    generalize htarget : Target.settled t = target at hwritten
    cases hwritten
    refine .named ?_
    rw [h.registry]
    exact target_settled htarget.symm
  | pointer of ih =>
    obtain _ | ⟨hnode, hof⟩ := hwritten
    rename_i target
    have hlt : t < s.graph.nodes.size := Graph.lt_size_of_node (by simp [hnode])
    cases target with
    | settled u =>
      have hnode' : s'.graph.node t = .pointer (.settled u) := by
        rw [h.node_eq hlt (by rw [hnode]; rfl), hnode]
      refine .pointer hnode' (ih (hclosed.link ?_) hof)
      rw [hnode']
      exact List.mem_singleton_self u
    | deferred side name =>
      -- an unknown name would have stayed open
      obtain ⟨u, ⟨side', name', hnode', hlookup⟩, -⟩ :=
        h.node_settled hlt (by rw [hnode]; rfl) (hclosed t .refl).2
      cases hnode.symm.trans hnode'
      rw [hof.deferred hentries] at hlookup
      cases hlookup
  | array spans of ih =>
    obtain _ | _ | ⟨hnode, hof⟩ := hwritten
    rename_i u
    have hlt : t < s.graph.nodes.size := Graph.lt_size_of_node (by simp [hnode])
    have hnode' := (h.node_eq hlt (by rw [hnode]; rfl)).trans hnode
    refine .array hnode' (ih (hclosed.link ?_) hof)
    rw [hnode']
    exact List.mem_singleton_self u

theorem make_spells (h : form.Makes s) :
    ∃ t s', make form s = (.ok (.settled t), s') ∧ Spells s' form t := by
  induction form with
  | named name =>
    obtain ⟨t, hlookup⟩ := h
    refine ⟨t, s, ?_, .named hlookup⟩
    change (Except.ok (s.target name), s) = _
    rw [Types.target, hlookup]
    rfl
  | pointer of ih =>
    obtain ⟨u, s₁, hof, hspells⟩ := ih h
    refine ⟨_, _, by rw [make_pointer, hof], .pointer Graph.node_add_self ?_⟩
    exact hspells.extends (extends_add s₁ _)
  | array spans of ih =>
    obtain ⟨hspans, hof⟩ := h
    obtain ⟨u, s₁, hof, hspells⟩ := ih hof
    obtain ⟨spans, rfl⟩ := Option.isSome_iff_exists.1 hspans
    refine ⟨_, _, by rw [make_array, hof], .array Graph.node_add_self ?_⟩
    exact hspells.extends (extends_add s₁ _)

end Make

section Declare

variable {s₀ s s₁ s₂ : Types}

theorem variableType_settled (t : TypeId) (s : Types) :
    variableType (.settled t) s =
      if s.graph.hasDeferrals t then ((settle t s).1.map fun _ => t, (settle t s).2) else (.ok t, s) := by
  rw [variableType, bind_apply, get_apply]
  dsimp only
  split
  · rw [bind_apply]
    rcases settle t s with ⟨_ | _, _⟩ <;> rfl
  · rfl

theorem declare_spells (hentries : ∀ entry ∈ s₁.registry.types, ∃ t, entry.2 = .settled t) {v : Announced}
    {d : Declaration} (h : declare v s₁ = (.ok d, s₂)) (hext : Extends s₂ s)
    (hclosed : s.graph.Closed d.type) : d.place = v.1 ∧ Spells s v.2 d.type := by
  rw [declare_apply] at h
  rcases hmake : make v.2 s₁ with ⟨e | target, s'⟩
  · rw [hmake] at h
    cases h
  rw [hmake] at h
  have hkeep := make_extends v.2 s₁
  rw [hmake] at hkeep
  dsimp only at h hkeep
  rw [← hkeep.registry] at hentries
  have hwritten := make_written hmake
  have htype := variableType_extends target s'
  rcases hfound : variableType target s' with ⟨e | t, s''⟩
  · rw [hfound] at h
    cases h
  rw [hfound] at h htype
  cases h
  cases target with
  | settled u =>
    have hu : t = u := by
      rw [variableType_settled] at hfound
      split at hfound
      · rcases hsettle : settle u s' with ⟨_ | _, _⟩
        · rw [hsettle] at hfound
          cases hfound
        · rw [hsettle] at hfound
          cases hfound
          rfl
      · cases hfound
        rfl
    subst hu
    exact ⟨rfl, hwritten.spells hentries (htype.trans hext) hclosed⟩
  | deferred side name =>
    rw [variableType, lookUpIn_apply, hwritten.deferred hentries] at hfound
    cases hfound

theorem declareEach_spells (vs : List Announced) {ds : List Declaration}
    (hentries : ∀ entry ∈ s₁.registry.types, ∃ t, entry.2 = .settled t)
    (h : declareEach vs s₁ = (.ok ds, s₂)) (hext : Extends s₂ s)
    (hclosed : ∀ d ∈ ds, s.graph.Closed d.type) :
    List.Forall₂ (fun v d => d.place = v.1 ∧ Spells s v.2 d.type) vs ds := by
  induction vs generalizing ds s₁ with
  | nil =>
    cases h
    exact .nil
  | cons v vs ih =>
    rw [declareEach_cons] at h
    have hkeep := declare_extends v s₁
    rcases hfirst : declare v s₁ with ⟨e | d, s'⟩
    · rw [hfirst] at h
      cases h
    rw [hfirst] at h hkeep
    dsimp only at h hkeep
    have hrest := declareEach_extends vs s'
    rcases hmore : declareEach vs s' with ⟨e | more, s''⟩
    · rw [hmore] at h
      cases h
    rw [hmore] at h hrest
    cases h
    refine .cons (declare_spells hentries hfirst (hrest.trans hext) (hclosed d List.mem_cons_self))
      (ih ?_ hmore fun e he => hclosed e (List.mem_cons_of_mem _ he))
    rwa [hkeep.registry]

theorem Spells.settleFrom_stuck (hs₀ : s₀.Neat) (h : Extends s₀ s)
    (hclosed : ∀ t, s₀.Registered t → s.graph.Closed t) (h₁ : Extends s₀ s₁) {form : TypeForm} {t : TypeId}
    (hspells : Spells s₁ form t) (depth : Nat) (told : Option (List TypeId)) :
    FailsAs Stuck (settleFrom depth t told s₁).1 := by
  induction hspells generalizing depth told with
  | named hlookup =>
    have hname := h₁.registered.1 ⟨_, mem_of_lookup hlookup⟩
    exact hs₀.settleFrom_stuck h depth _ told s₁ h₁ (hs₀.named _ hname).1 (hclosed _ hname)
  | pointer hnode _ ih =>
    cases depth with
    | zero => exact .error (.inr rfl)
    | succ depth =>
      rw [settleFrom_succ, bind_apply, settleSelf_apply, Graph.visits, hnode]
      dsimp only
      rw [inTurn_one, settleVisit_apply]
      split
      · exact ih depth none
      · exact .ok ()
  | array hnode _ ih =>
    cases depth with
    | zero => exact .error (.inr rfl)
    | succ depth =>
      rw [settleFrom_succ, bind_apply, settleSelf_apply, Graph.visits, hnode]
      cases told with
      | none => exact .error (.inl rfl)
      | some trail =>
        simp only [Option.isNone_some, Bool.false_eq_true, if_false]
        rw [inTurn_one, settleVisit_apply]
        split
        · exact ih depth _
        · exact .ok ()

theorem declare_stuck (hs₀ : s₀.Neat) (h : Extends s₀ s)
    (hclosed : ∀ t, s₀.Registered t → s.graph.Closed t) {v : Announced} (hmakes : v.2.Makes s₀)
    (h₁ : Extends s₀ s₁) : FailsAs Stuck (declare v s₁).1 := by
  obtain ⟨t, s', hmake, hspells⟩ := make_spells ((TypeForm.makes_iff h₁).2 hmakes)
  have hext := make_extends v.2 s₁
  rw [hmake] at hext
  rw [declare_apply, hmake]
  dsimp only
  rw [variableType_settled]
  split
  · exact (hspells.settleFrom_stuck hs₀ h hclosed (h₁.trans hext) settleDepth none).map.map
  · exact .ok _

theorem declareEach_stuck (hs₀ : s₀.Neat) (h : Extends s₀ s)
    (hclosed : ∀ t, s₀.Registered t → s.graph.Closed t) (vs : List Announced)
    (hmakes : ∀ v ∈ vs, v.2.Makes s₀) (h₁ : Extends s₀ s₁) : FailsAs Stuck (declareEach vs s₁).1 := by
  induction vs generalizing s₁ with
  | nil => exact .ok []
  | cons v vs ih =>
    have hfirst := declare_stuck hs₀ h hclosed (hmakes v List.mem_cons_self) h₁
    have hkeep := declare_extends v s₁
    rw [declareEach_cons]
    rcases hdeclare : declare v s₁ with ⟨e | d, s₂⟩
    · rw [hdeclare] at hfirst
      exact .error (hfirst e rfl)
    · rw [hdeclare] at hkeep
      exact (ih (fun w hw => hmakes w (List.mem_cons_of_mem _ hw)) (h₁.trans hkeep)).map

end Declare

end Chalkboard.Reading
