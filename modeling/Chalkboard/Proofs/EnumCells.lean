import Chalkboard.Proofs.Reachable

/-! What stands in the cells of an enumeration. A value comes into a cell from an expression, and an
expression makes constants only from the table and texts only from characters that are written in it. So the
cells of an enumeration hold its own constants, and besides them only the names of its constants, where a
program writes characters. -/

namespace Chalkboard.Types

open Effects

/-- A type stands for another if it is that type, or a synonym of one that stands for it. -/
inductive Graph.StandsFor (g : Graph) (u : TypeId) : TypeId → Prop
  | itself : StandsFor g u u
  | synonym {t part : TypeId} {name : Option String} (ht : g.node t = .synonym name part)
      (hpart : StandsFor g u part) : StandsFor g u t

section Fits

variable {g : Graph} {t u : TypeId} {v : Value}

theorem Fits.of_synonym {part : TypeId} {name : Option String} (h : Fits g t v)
    (ht : g.node t = .synonym name part) : Fits g part v := by
  cases h with
  | synonym ht' hv =>
    rw [ht] at ht'
    cases ht'
    exact hv
  | _ => simp_all

theorem Fits.of_standsFor (h : Fits g t v) (hstands : g.StandsFor u t) : Fits g u v := by
  induction hstands with
  | itself => exact h
  | synonym ht _ ih => exact ih (h.of_synonym ht)

theorem Fits.of_enum {own : Option String} {constants : List (String × Nat)} (h : Fits g u v)
    (hu : g.node u = .enum own constants) :
    (∃ word ∈ constants.map (·.1), v = .text word) ∨ ∃ k, v = .constant k ∧ k.owner = u := by
  cases h with
  | word ht hs =>
    rw [hu] at ht
    cases ht
    exact .inl ⟨_, hs, rfl⟩
  | constant ht howner => exact .inr ⟨_, rfl, howner⟩
  | _ => simp_all

end Fits

/-- Every constant in the table is one of the type that owns it. -/
def Owned (s : Types) : Prop :=
  ∀ entry ∈ s.registry.constants, (entry.2.name, entry.2.number) ∈ (s.graph.node entry.2.owner).constants

section Owned

variable {s s' : Types} {t : TypeId}

theorem owned_basic : Owned {} := List.forall_mem_nil _

theorem Graph.lt_of_constants {g : Graph} {entry : String × Nat} (h : entry ∈ (g.node t).constants) :
    t < g.nodes.size := by
  by_contra hge
  rw [Graph.node, Array.getD_eq_getD_getElem?, Array.getElem?_eq_none (Nat.le_of_not_lt hge)] at h
  cases h

theorem Owned.add {n : Node} (hs : s.Owned) : Owned { s with graph := (s.graph.add n).2 } := by
  intro entry hk
  have hold := hs entry hk
  dsimp only
  rwa [Graph.node_add_ne (Nat.ne_of_lt (Graph.lt_of_constants hold))]

theorem Owned.later (h : s.Owned) (hlater : Later s s') : s'.Owned := by
  intro entry hk
  rw [hlater.rest] at hk
  have hold := h entry hk
  rcases hlater.settles.node entry.2.owner with hsame | ⟨hopen, -⟩
  · rwa [hsame]
  · -- what was open is a pointer, and a pointer owns no constants
    revert hold hopen
    cases s.graph.node entry.2.owner <;> simp [Node.constants, Node.isOpen]

theorem Node.constants_named_eq (n : Node) (name : String) : (n.named name).constants = n.constants := by
  cases n <;> rfl

theorem Node.eq_enum {n : Node} {c : String × Nat} {cs : List (String × Nat)} (h : n.constants = c :: cs) :
    ∃ own, n = .enum own (c :: cs) := by
  cases n <;> simp_all [Node.constants]

theorem Node.eq_synonym {n : Node} (h : n.meant = some t) : ∃ name, n = .synonym name t := by
  cases n <;> simp_all [Node.meant]

theorem Owned.register (h : s.Owned) (ht : s.Nameless t) (limits : Limits) (name : String) :
    Owned (Types.register limits name t s).2 := by
  have hentered : ∀ entry ∈ s.entered t,
      (entry.2.name, entry.2.number) ∈ (s.graph.node entry.2.owner).constants := by
    rintro ⟨c, k⟩ hk
    rcases List.mem_append.1 hk with hk | hk
    · exact h _ hk
    · obtain ⟨⟨c', n⟩, hmem, heq⟩ := List.mem_map.1 hk
      cases heq
      exact hmem
  rcases register_cases limits name t s with ⟨-, e, hfails⟩ | ⟨-, ⟨e, -, hfails⟩ | ⟨-, hdone⟩⟩
  · rw [hfails]
    exact h
  · rw [hfails]
    exact hentered
  rw [hdone]
  rintro ⟨c, k⟩ hk
  obtain ⟨⟨c', k'⟩, hmem, heq⟩ := List.mem_map.1 hk
  have hsame : (k.name, k.number) = (k'.name, k'.number) ∧ k.owner = k'.owner := by
    rw [← (Prod.mk.inj heq).2]
    split <;> exact ⟨rfl, rfl⟩
  have hold := hentered _ hmem
  dsimp only at hold ⊢
  rw [hsame.1, hsame.2]
  by_cases howner : k'.owner = t
  · rw [howner] at hold ⊢
    rwa [Graph.node_set_self ht.size, Node.constants_named_eq]
  · rwa [Graph.node_set_ne howner]

theorem Owned.change {limits : Limits} {settling : Prop} (h : s.Owned) (hchange : Change limits settling s s') :
    s'.Owned := by
  cases hchange with
  | add _ => exact h.add
  | name name ht => exact h.register ht limits name
  | settle _ hlater => exact h.later hlater

end Owned

end Chalkboard.Types

namespace Chalkboard.Reading

theorem readProgram_owned {s : Types} {setting : Setting} {text : String} {p : Syntax.Program}
    (h : (readProgram setting text).run {} = (.ok p, s)) : s.Owned :=
  readProgram_keeps Types.sound_basic Types.owned_basic (fun _ _ _ hs => hs.change) h

end Chalkboard.Reading

namespace Chalkboard.Run

open Effects
open Syntax (Expr Variable Sentence Action Item Program UnaryOp BinaryOp)
open Reading (readProgram)
open Memory (MemoryM Address Cell Location)
open Chalkboard.Types (Fits)

section Values

variable {a b v w : Value}

/-- What is known of a value: a constant stands in the table, and a text is about only if texts are. -/
structure Grounded (types : Types) (texts : Prop) (v : Value) : Prop where
  constant {k : Constant} (hk : v = .constant k) : ∃ c, (c, k) ∈ types.registry.constants
  text (hv : v.IsText) : texts

variable {types : Types} {texts : Prop}

theorem grounded_of_sourceless (h : v.Sourceless) : Grounded types texts v := by
  constructor
  · rintro k rfl
    exact h.elim
  · rintro ⟨s, rfl⟩
    exact h.elim

theorem Grounded.made (ha : Grounded types texts a) (hb : Grounded types texts b) (h : Value.Made a b v) :
    Grounded types texts v := by
  rcases h with hplain | ⟨⟨s, rfl⟩, htext⟩
  · exact grounded_of_sourceless hplain
  · constructor
    · rintro k hk
      cases hk
    · rintro -
      exact htext.elim ha.text hb.text

theorem literalValue_grounded {kind : Syntax.LiteralKind} {word : String}
    (h : literalValue types kind word = .ok v) (hkind : kind = .char → texts) : Grounded types texts v := by
  rcases literalValue_cases h with hplain | ⟨k, rfl, hlookup⟩ | ⟨hchar, s, rfl⟩
  · exact grounded_of_sourceless hplain
  · constructor
    · rintro _ ⟨⟩
      exact ⟨word, Types.mem_of_lookup hlookup⟩
    · rintro ⟨s, ⟨⟩⟩
  · constructor
    · rintro k ⟨⟩
    · rintro -
      exact hkind hchar

end Values

/-- Whether the value that an action writes comes from an expression with a character in it. -/
def spellsOut : Action → Bool
  | .perform (.assign _ e) => spells e
  | .perform (.count _ start _ _ _) => spells start
  | _ => false

def AllGrounded (types : Types) (texts : Prop) (m : Memory) : Prop :=
  ∀ b t v, m.HasLeaf b t v → Grounded types texts v

section Steps

variable {f : Frame} {m m' : Memory} {texts : Prop} {item : Item}

theorem evalExpr_grounded (hm : AllGrounded f.types texts m) {e : Expr} (hspells : spells e = true → texts)
    {v : Value} (h : evalExpr (f.env m) e = .ok v) : Grounded f.types texts v :=
  evalExpr_induct texts (fun _ => grounded_of_sourceless) (fun _ _ _ => literalValue_grounded)
    (fun _ _ b t v hlocate => hm b t v (Memory.hasLeaf_of_cellAt? (locate_cellAt? hlocate)))
    (fun _ _ _ ha hb hmade => ha.made hb hmade) e hspells v h

theorem AllGrounded.done {next : Option Nat} (htexts : spellsOut item.action = true → texts) (hm : m.Distinct)
    (h : AllGrounded f.types texts m) (hdone : Done f m item next m') : AllGrounded f.types texts m' := by
  intro b t v hleaf
  cases hdone with
  | kept => exact h b t v hleaf
  | wrote hwrites =>
    rcases hleaf.of_write hm with hold | ⟨rfl, -⟩
    · exact h b t v hold
    cases hwrites with
    | assigned haction hvalue =>
      rw [haction] at htexts
      exact evalExpr_grounded h htexts hvalue
    | counted haction _ hvalue =>
      rw [haction] at htexts
      exact hvalue.elim (evalExpr_grounded h htexts) grounded_of_sourceless
  | declared _ _ hlaid =>
    rcases hleaf.of_push with hold | ⟨path, hat⟩
    · exact h b t v hold
    · rw [hlaid.blank hat]
      exact grounded_of_sourceless trivial
  | stored _ _ _ _ _ hlaid hm₁ =>
    subst hm₁
    rcases hleaf.of_enter with hold | ⟨path, hat⟩
    · rcases hold.of_write (distinct_setNext.2 hm) with hold | ⟨rfl, -⟩
      · exact h b t v (hasLeaf_setNext.1 hold)
      · constructor
        · rintro k ⟨⟩
        · rintro ⟨s, ⟨⟩⟩
    · rw [hlaid.blank hat]
      exact grounded_of_sourceless trivial
  | removed =>
    rcases hleaf.of_write (hm.erase _) with hold | ⟨rfl, -⟩
    · exact h b t v hold.of_erase
    · exact grounded_of_sourceless trivial

theorem AllGrounded.step (sound : f.types.graph.Sound) (place : Nat) {s : Situation}
    (htexts : spellsOut item.action = true → texts) (hm : s.memory.Distinct)
    (h : AllGrounded f.types texts s.memory) :
    AllGrounded f.types texts (Run.step f place item s).2.memory := by
  rw [step_eq]
  rcases hcomplete : complete f place item s with ⟨e | next, s'⟩
  · obtain ⟨-, p, n, -, hmemory⟩ := complete_careful sound place item s e s' hcomplete
    dsimp only
    rw [hmemory]
    exact fun b t v hleaf => h b t v (hasLeaf_setNext.1 hleaf)
  · exact h.done htexts hm (complete_done sound hcomplete)

end Steps

/-- What is kept of the memory of a program: its leaves hold what fits them, and values that are grounded. -/
structure Accounted (types : Types) (texts : Prop) (m : Memory) : Prop where
  distinct : m.Distinct
  typed : WellTyped types.graph m
  grounded : AllGrounded types texts m

theorem accounted_start (types : Types) (texts : Prop) : Accounted types texts {} where
  distinct := ⟨.nil, .nil⟩
  typed := wellTyped_start
  grounded := by
    rintro b t v ⟨c, path, ⟨name, hmem⟩ | ⟨key, hmem⟩, -⟩ <;> cases hmem

theorem Accounted.step {f : Frame} {texts : Prop} {s : Situation} (sound : f.types.graph.Sound) (place : Nat)
    {item : Item} (htexts : spellsOut item.action = true → texts) (h : Accounted f.types texts s.memory) :
    Accounted f.types texts (Run.step f place item s).2.memory := by
  have hgrounded := h.grounded.step sound place htexts h.distinct
  rcases step_turn sound place item s with hturn | ⟨-, -, n, -, hvain⟩
  · exact ⟨hturn.distinct h.distinct, h.typed.turn h.distinct hturn, hgrounded⟩
  · refine ⟨?_, ?_, hgrounded⟩
    · rw [hvain]
      exact distinct_setNext.2 h.distinct
    · rw [hvain]
      exact h.typed.setNext .heap n

/-- A program that was read, after any number of steps on a new memory, also when the last one failed: a cell
whose type is an enumeration, or a synonym of one, holds nothing yet, or a constant that the enumeration owns
and has in its list, or a text; this is then the name of one of its constants, and the program has an
assignment or a counting loop that takes its value from an expression with a character in it. -/
theorem enum_cells_hold_own_constants {setting : Reading.Setting} {text : String} {p : Program}
    {types : Types} (hread : (readProgram setting text).run {} = (.ok p, types)) (limits : Types.Limits)
    (indexing : Bool) (looping : List Nat) (n : Nat) :
    let m := (runProgram ⟨types, limits, indexing⟩ {} p false n (.start none looping ())).2.situation.memory
    ∀ b t v u own constants, m.HasLeaf b t v → types.graph.StandsFor u t →
      types.graph.node u = .enum own constants →
      v = .unknown ∨
      (∃ k, v = .constant k ∧ k.owner = u ∧ (k.name, k.number) ∈ constants) ∨
      (∃ word ∈ constants.map (·.1), v = .text word) ∧ ∃ item ∈ p.items, spellsOut item.action = true := by
  intro m b t v u own constants hleaf hstands hu
  have sound := (Reading.readProgram_sound hread).graph
  have hm : Accounted types (∃ item ∈ p.items, spellsOut item.action = true) m := by
    unfold m runProgram
    rw [if_neg (by simp)]
    dsimp only
    split
    · exact accounted_start types _
    · refine runFrom_upholds (fun place item s hitem hs => ?_) n (some 0) _ (accounted_start types _)
      refine Accounted.step (f := ⟨types, limits, indexing⟩) sound place (fun hspells => ?_) hs
      exact ⟨item, List.mem_of_getElem? (List.getElem?_toArray ▸ hitem), hspells⟩
  rcases hm.typed b t v hleaf with hunknown | hfits
  · exact .inl hunknown
  rcases (hfits.of_standsFor hstands).of_enum hu with ⟨word, hword, rfl⟩ | ⟨k, rfl, howner⟩
  · exact .inr (.inr ⟨⟨word, hword, rfl⟩, (hm.grounded b t _ hleaf).text ⟨word, rfl⟩⟩)
  · obtain ⟨c, hk⟩ := (hm.grounded b t _ hleaf).constant rfl
    have hconstant := Reading.readProgram_owned hread _ hk
    rw [howner, hu] at hconstant
    exact .inr (.inl ⟨k, rfl, howner, hconstant⟩)

/-- An enumeration and a synonym of it; a name in quotes comes into one cell, a constant into the other. -/
def quotedName : String :=
  "type e = enumerate\nA\nB\nend enumerate\ntype s = e\nvar x: e\nvar y: s\nx := 'A'\ny := B\n"

theorem quotedName_end :
    passes (readProgram {} quotedName) {} (fun p types =>
      let m := (runProgram ⟨types, {}, true⟩ {} p false 4 (.start none [] ())).2.situation.memory
      match m.cellAt? ⟨.stack "x", []⟩, m.cellAt? ⟨.stack "y", []⟩ with
      | some (.leaf _ t (.text word)), some (.leaf _ t' (.constant k)) =>
        word == "A" && k.name == "B" && (types.graph.node t).constants == [("A", 1), ("B", 2)] &&
          (types.graph.node t').meant == some t
      | _, _ => false) = true := by
  decide +kernel

/-- The constant in the second cell is the enumeration's own. -/
theorem quotedName_holds_constant :
    ∃ p types, (readProgram {} quotedName).run {} = (.ok p, types) ∧
      let m := (runProgram ⟨types, {}, true⟩ {} p false 4 (.start none [] ())).2.situation.memory
      ∃ b t u own k, m.HasLeaf b t (.constant k) ∧ types.graph.StandsFor u t ∧ t ≠ u ∧
        types.graph.node u = .enum own [("A", 1), ("B", 2)] ∧
        k.owner = u ∧ k.name = "B" ∧ (k.name, k.number) ∈ [("A", 1), ("B", 2)] := by
  obtain ⟨p, types, hread, hcheck⟩ := of_passes quotedName_end
  refine ⟨p, types, hread, ?_⟩
  dsimp only at hcheck
  split at hcheck
  · rename_i _ u word b t k _ hy
    simp only [Bool.and_eq_true, beq_iff_eq] at hcheck
    obtain ⟨⟨⟨-, hname⟩, hu⟩, ht⟩ := hcheck
    obtain ⟨own, hu⟩ := Types.Node.eq_enum hu
    obtain ⟨name, ht⟩ := Types.Node.eq_synonym ht
    have hleaf := Memory.hasLeaf_of_cellAt? hy
    have hstands : types.graph.StandsFor u t := .synonym ht .itself
    have hne : t ≠ u := by
      rintro rfl
      rw [hu] at ht
      cases ht
    rcases enum_cells_hold_own_constants hread {} true [] 4 b t _ u own _ hleaf hstands hu with
      hunknown | ⟨k', hk, howner, hmem⟩ | ⟨⟨word, -, htext⟩, -⟩
    · cases hunknown
    · cases hk
      exact ⟨b, t, u, own, k, hleaf, hstands, hne, hu, howner, hname, hmem⟩
    · cases htext
  · cases hcheck

/-- The first cell is one of the enumeration itself and holds no constant: what it holds is a text. -/
theorem quotedName_holds_text :
    ∃ p types, (readProgram {} quotedName).run {} = (.ok p, types) ∧
      let m := (runProgram ⟨types, {}, true⟩ {} p false 4 (.start none [] ())).2.situation.memory
      ∃ b t own, m.HasLeaf b t (.text "A") ∧ types.graph.node t = .enum own [("A", 1), ("B", 2)] := by
  obtain ⟨p, types, hread, hcheck⟩ := of_passes quotedName_end
  refine ⟨p, types, hread, ?_⟩
  dsimp only at hcheck
  split at hcheck
  · rename_i b t word _ _ _ hx _
    simp only [Bool.and_eq_true, beq_iff_eq] at hcheck
    obtain ⟨⟨⟨rfl, -⟩, ht⟩, -⟩ := hcheck
    obtain ⟨own, ht⟩ := Types.Node.eq_enum ht
    exact ⟨b, t, own, Memory.hasLeaf_of_cellAt? hx, ht⟩
  · cases hcheck

end Chalkboard.Run
