import Chalkboard.Proofs.ClosedTypes

/-! The types that the declarations of a program make, before any open target is settled. All that a type
leads to was there before it, and no name is given twice. A type without a name is part of one type only, in
one place; so two fields of a tuple lead to the same type only through a type that has a name. -/

namespace Chalkboard.Types

open Effects Relation

/-- Types as they are made. -/
structure Neat (s : Types) : Prop where
  standby : s.standby.types ⊆ s.registry.types
  entries : ∀ entry ∈ s.registry.types, ∃ t, entry.2 = .settled t
  single : s.registry.types.Pairwise fun e f => e.1 ≠ f.1
  named : ∀ t, s.Registered t → t < s.graph.nodes.size ∧ (s.graph.node t).isMade = false
  down : ∀ t, ∀ u ∈ (s.graph.node t).links, u < t
  once : ∀ u, ¬s.Registered u → ∀ t t', u ∈ (s.graph.node t).links → u ∈ (s.graph.node t').links → t = t'
  apart : ∀ t, (s.graph.node t).links.Pairwise fun u w => u = w → s.Registered u

section Change

variable {limits : Limits} {n : Node} {name : String} {s s' : Types} {settling : Prop} {t : TypeId}

theorem Neat.add (hs : s.Neat) (hn : s.Addable n) : Neat { s with graph := (s.graph.add n).2 } := by
  have hnode (t : TypeId) : (s.graph.add n).2.node t =
      if t = s.graph.nodes.size then n else s.graph.node t := by
    split
    · rename_i heq
      rw [heq, Graph.node_add_self]
    · rename_i hne
      exact Graph.node_add_ne hne
  refine ⟨hs.standby, hs.entries, hs.single, fun t ht => ?_, fun t u hu => ?_,
    fun u hu t t' ht ht' => ?_, fun t => ?_⟩
  · obtain ⟨hlt, hmade⟩ : t < s.graph.nodes.size ∧ _ := hs.named t ht
    dsimp only
    rw [Graph.size_add, Graph.node_add_ne (Nat.ne_of_lt hlt)]
    exact ⟨Nat.lt_succ_of_lt hlt, hmade⟩
  · dsimp only at hu
    rw [hnode] at hu
    split at hu
    · rename_i heq
      rw [heq]
      exact (hn.usable u hu).1
    · exact hs.down t u hu
  · dsimp only at ht ht'
    have hname : ¬s.Registered u := hu
    rw [hnode] at ht ht'
    split at ht <;> split at ht'
    · rename_i heq heq'
      rw [heq, heq']
    · exact absurd ht' (((hn.spare u ht).resolve_left hname) t')
    · exact absurd ht (((hn.spare u ht').resolve_left hname) t)
    · exact hs.once u hname t t' ht ht'
  · dsimp only
    rw [hnode]
    split
    · exact hn.apart
    · exact hs.apart t

theorem Neat.register (hs : s.Neat) (ht : s.Nameless t) : (Types.register limits name t s).2.Neat := by
  rcases register_cases limits name t s with
    ⟨-, e, hfails⟩ | ⟨⟨hnew, hdefined, -⟩, ⟨e, -, hfails⟩ | ⟨-, hdone⟩⟩
  · rw [hfails]
    exact hs
  · rw [hfails]
    exact ⟨hs.standby, hs.entries, hs.single, hs.named, hs.down, hs.once, hs.apart⟩
  rw [hdone]
  have hlinks (u : TypeId) :
      ((s.graph.set t (Node.named name (s.graph.node t))).node u).links = (s.graph.node u).links := by
    by_cases heq : u = t
    · rw [heq, Graph.node_set_self ht.size, ← Node.links_unnamed, Node.unnamed_named, Node.links_unnamed]
    · rw [Graph.node_set_ne heq]
  have hnames {u : TypeId} (hu : s.Registered u) :
      Registered { s with
        graph := s.graph.set t (Node.named name (s.graph.node t))
        registry := ⟨s.registry.types ++ [(name, .settled t)], nameConstants t name (s.entered t)⟩ } u :=
    hu.imp fun _ hmem => List.mem_append_left _ hmem
  refine ⟨fun entry hmem => List.mem_append_left _ (hs.standby hmem), fun entry hmem => ?_, ?_,
    fun u hu => ?_, fun u => ?_, fun u hu w w' => ?_, fun u => ?_⟩
  · rcases List.mem_append.1 hmem with hmem | hmem
    · exact hs.entries entry hmem
    · rw [List.mem_singleton.1 hmem]
      exact ⟨t, rfl⟩
  · refine List.pairwise_append.2 ⟨hs.single, List.pairwise_singleton _ _, fun entry hmem e he => ?_⟩
    rw [List.mem_singleton.1 he]
    exact fun heq => hnew (List.mem_map.2 ⟨entry, hmem, heq⟩)
  · obtain ⟨name', hmem⟩ := hu
    dsimp only
    rw [Graph.size_set]
    by_cases heq : u = t
    · rw [heq, Graph.node_set_self ht.size]
      refine ⟨ht.size, ?_⟩
      revert hdefined
      cases s.graph.node t <;> simp [Node.isUserDefined, Node.isMade, Node.named]
    · rw [Graph.node_set_ne heq]
      rcases List.mem_append.1 hmem with hmem | hmem
      · exact hs.named u ⟨name', hmem⟩
      · cases List.mem_singleton.1 hmem
        exact absurd rfl heq
  · dsimp only
    rw [hlinks]
    exact hs.down u
  · dsimp only
    rw [hlinks, hlinks]
    exact hs.once u (fun hold => hu (hnames hold)) w w'
  · dsimp only
    rw [hlinks]
    exact (hs.apart u).imp fun hsame heq => hnames (hsame heq)

theorem Neat.change (hs : s.Neat) (h : Change limits False s s') : s'.Neat := by
  cases h with
  | add hn => exact hs.add hn
  | name name ht => exact hs.register ht
  | settle hnever _ => exact hnever.elim

end Change

section Meet

variable {s : Types} {t u v w x : TypeId}

theorem Neat.le_of_reaches (hs : s.Neat) (h : s.graph.Reaches t u) : u ≤ t := by
  induction h with
  | refl => exact Nat.le_refl t
  | tail _ hlink ih => exact Nat.le_trans (Nat.le_of_lt (hs.down _ _ hlink)) ih

theorem Neat.meet (hs : s.Neat) (ht : s.graph.Reaches t x) (hu : s.graph.Reaches u x) :
    s.graph.Reaches t u ∨ s.graph.Reaches u t ∨
      ∃ w, s.Registered w ∧ s.graph.Reaches t w ∧ s.graph.Reaches u w ∧ s.graph.Reaches w x := by
  induction ht with
  | refl => exact .inr (.inl hu)
  | tail hty hlink ih =>
    rename_i y x
    by_cases hname : s.Registered x
    · exact .inr (.inr ⟨x, hname, hty.tail hlink, hu, .refl⟩)
    rcases ReflTransGen.cases_tail hu with rfl | ⟨y', hu', hlink'⟩
    · exact .inl (hty.tail hlink)
    · -- without a name, what is led to is part of one type only
      obtain rfl := hs.once x hname y y' hlink hlink'
      refine (ih hu').imp id (.imp id ?_)
      rintro ⟨w, hw, htw, huw, hwy⟩
      exact ⟨w, hw, htw, huw, hwy.tail hlink⟩

/-- A type with a name and another that lead to a third meet in a type with a name, unless the other has
no name and lies behind the first. -/
theorem Neat.meet_named (hs : s.Neat) (hname : s.Registered t) (ht : s.graph.Reaches t x)
    (hu : s.graph.Reaches u x) :
    (∃ w, s.Registered w ∧ s.graph.Reaches t w ∧ s.graph.Reaches u w ∧ s.graph.Reaches w x) ∨
      ¬s.Registered u ∧ s.graph.Reaches t u := by
  rcases hs.meet ht hu with htu | hut | hmeet
  · by_cases hu' : s.Registered u
    · exact .inl ⟨u, hu', htu, .refl, hu⟩
    · exact .inr ⟨hu', htu⟩
  · exact .inl ⟨t, hname, .refl, hut, ht⟩
  · exact .inl hmeet

theorem Neat.reaches_whole (hs : s.Neat) (hlink : u ∈ (s.graph.node v).links) (hname : ¬s.Registered u)
    (h : s.graph.Reaches t u) (hne : t ≠ u) : s.graph.Reaches t v := by
  rcases ReflTransGen.cases_tail h with heq | ⟨v', htv', hlink'⟩
  · exact absurd heq.symm hne
  · rwa [hs.once u hname v v' hlink hlink']

theorem Neat.shared (hs : s.Neat) (ht : t ∈ (s.graph.node v).links) (hu : u ∈ (s.graph.node v).links)
    (hapart : t = u → s.Registered t) (htx : s.graph.Reaches t x) (hux : s.graph.Reaches u x) :
    ∃ w, s.Registered w ∧ s.graph.Reaches t w ∧ s.graph.Reaches u w ∧ s.graph.Reaches w x := by
  -- a part that leads to another part leads to the whole, unless the other has a name
  have hparts {a b : TypeId} (ha : a ∈ (s.graph.node v).links) (hb : b ∈ (s.graph.node v).links)
      (hne : a ≠ b) (hab : s.graph.Reaches a b) : s.Registered b := by
    by_contra hname
    have hback := hs.le_of_reaches (hs.reaches_whole hb hname hab hne)
    exact Nat.not_lt_of_le hback (hs.down v a ha)
  by_cases heq : t = u
  · exact ⟨t, hapart heq, .refl, heq ▸ .refl, htx⟩
  rcases hs.meet htx hux with htu | hut | hmeet
  · exact ⟨u, hparts ht hu heq htu, htu, .refl, hux⟩
  · exact ⟨t, hparts hu ht (Ne.symm heq) hut, .refl, hut, htx⟩
  · exact hmeet

end Meet

theorem neat_basic : Neat {} := by
  refine ⟨List.Subset.refl _, fun entry hmem => (sound_basic.names entry hmem).imp fun _ h => h.1,
    by simp [Registry.basic], fun t ht => ⟨(sound_basic.usable ht).1, ?_⟩,
    fun t u hu => ?_, fun u _ t _ hu => ?_, fun t => ?_⟩
  · exact (Graph.basic_node t).2.1
  · rw [(Graph.basic_node t).1] at hu
    cases hu
  · rw [(Graph.basic_node t).1] at hu
    cases hu
  · rw [(Graph.basic_node t).1]
    exact .nil

end Chalkboard.Types

namespace Chalkboard.Reading

open Effects Chalkboard.Types

theorem readAnnounced_neat {setting : Setting} {text : String} {a : Announcement} {s : Types}
    (h : readAnnounced setting text {} = (.ok a, s)) : s.Neat := by
  obtain ⟨start, -, hrest⟩ := lift_bind_ok h
  obtain ⟨⟨head, c⟩, s₂, hhead, hrest⟩ := bind_ok hrest
  obtain ⟨_, s₃, hget, hrest⟩ := bind_ok hrest
  cases hget
  obtain ⟨_, -, hrest⟩ := lift_bind_ok hrest
  cases hrest
  have hread : Leaves (Change setting.limits False) {} _ (readHead setting start {}) :=
    readHead_heeds sound_basic start
  rw [show readHead setting start {} = _ from hhead] at hread
  exact (Course.keeps hread.course sound_basic neat_basic fun _ _ _ hs hchange => hs.change hchange).2.2

end Chalkboard.Reading
