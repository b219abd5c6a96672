import Chalkboard.Proofs.ReadTypes

/-! The constants of all enumerations stand in one table under their own names. The table and the
enumerations that have a name agree after every reading, whether or not it ended in a fault. -/

namespace Chalkboard.Types

open Effects

/-- An enumeration that has a name, with its constants. -/
def Enumerates (s : Types) (name : String) (t : TypeId) (constants : List (String × Nat)) : Prop :=
  (name, .settled t) ∈ s.registry.types ∧ ∃ own, s.graph.node t = .enum own constants

/-- Names are given once, the table has the constants of the enumerations with a name, and no others. -/
structure Consistent (s : Types) : Prop where
  below : ∀ t, s.Registered t → t < s.graph.nodes.size
  names : (s.registry.types.map (·.1)).Nodup
  table : (s.registry.constants.map (·.1)).Nodup
  owned : ∀ c k, (c, k) ∈ s.registry.constants → ∃ name constants n,
    s.Enumerates name k.owner constants ∧ (c, n) ∈ constants ∧ k = ⟨k.owner, some name, c, n⟩
  entered : ∀ name t constants, s.Enumerates name t constants → ∀ c n, (c, n) ∈ constants →
    (c, ⟨t, some name, c, n⟩) ∈ s.registry.constants

variable {s s' : Types} {t : TypeId}

theorem Consistent.of_enums (h : s.Consistent) (hregistry : s'.registry = s.registry)
    (hsize : s.graph.nodes.size ≤ s'.graph.nodes.size)
    (henum : ∀ t < s.graph.nodes.size, ∀ own constants,
      s'.graph.node t = .enum own constants ↔ s.graph.node t = .enum own constants) : s'.Consistent := by
  have hnamed (t : TypeId) : s'.Registered t ↔ s.Registered t := by rw [Registered, hregistry]; rfl
  have hsame (name : String) (t : TypeId) (constants : List (String × Nat)) :
      s'.Enumerates name t constants ↔ s.Enumerates name t constants := by
    unfold Enumerates
    rw [hregistry]
    refine and_congr_right fun hmem => exists_congr fun own => henum t (h.below t ⟨name, hmem⟩) own constants
  refine ⟨fun t ht => ?_, hregistry ▸ h.names, hregistry ▸ h.table, fun c k hk => ?_,
    fun name t constants ht => ?_⟩
  · exact Nat.lt_of_lt_of_le (h.below t ((hnamed t).1 ht)) hsize
  · obtain ⟨name, constants, n, hname, hrest⟩ := h.owned c k (hregistry ▸ hk)
    exact ⟨name, constants, n, (hsame _ _ _).2 hname, hrest⟩
  · rw [hregistry]
    exact h.entered name t constants ((hsame _ _ _).1 ht)

theorem Consistent.add {n : Node} (h : s.Consistent) :
    Consistent { s with graph := (s.graph.add n).2 } := by
  refine h.of_enums rfl (by simp [Graph.size_add]) fun t ht own constants => ?_
  dsimp only
  rw [Graph.node_add_ne (Nat.ne_of_lt ht)]

theorem Consistent.later (h : s.Consistent) (hlater : Later s s') : s'.Consistent := by
  refine h.of_enums (by rw [hlater.rest]) (Nat.le_of_eq hlater.settles.size.symm) fun t _ own constants => ?_
  rcases hlater.settles.node t with hsame | ⟨hopen, target, hnode⟩
  · rw [hsame]
  · rw [hnode]
    constructor
    · intro heq
      cases heq
    · intro heq
      rw [heq] at hopen
      cases hopen

section Register

variable {constants : List (String × Nat)} {name : String} {node : Node} {own : Option String}

theorem nameConstants_append {known : List (String × Constant)}
    (hknown : ∀ entry ∈ known, entry.2.owner ≠ t) (constants : List (String × Nat)) :
    nameConstants t name (known ++ constants.map fun (c, n) => (c, (⟨t, none, c, n⟩ : Constant))) =
      known ++ constants.map fun (c, n) => (c, (⟨t, some name, c, n⟩ : Constant)) := by
  rw [nameConstants, List.map_append, List.map_map]
  congr 1
  · refine (List.map_congr_left fun entry hentry => ?_).trans (List.map_id _)
    simp [hknown entry hentry]
  · refine List.map_congr_left fun entry _ => ?_
    simp

theorem Node.named_enum (h : node.named name = .enum own constants) :
    node.constants = constants := by
  cases node <;> simp_all [Node.named, Node.constants]

theorem Node.constants_named {c : String} {n : Nat} (h : (c, n) ∈ node.constants) :
    node.named name = .enum (some name) node.constants := by
  cases node <;> simp_all [Node.named, Node.constants]

theorem Consistent.register_named (h : s.Consistent) (ht : s.Nameless t)
    (hname : name ∉ s.registry.types.map (·.1))
    (hnew : ∀ c ∈ (s.graph.node t).constants.map (·.1), c ∉ s.registry.constants.map (·.1)) :
    Consistent { s with
      graph := s.graph.set t ((s.graph.node t).named name)
      registry :=
        { types := s.registry.types ++ [(name, .settled t)]
          constants := s.registry.constants ++
            (s.graph.node t).constants.map fun (c, n) => (c, (⟨t, some name, c, n⟩ : Constant)) } } := by
  have hself : (s.graph.set t ((s.graph.node t).named name)).node t = (s.graph.node t).named name :=
    Graph.node_set_self ht.size
  have hother {u : TypeId} {name' : String} (hu : (name', .settled u) ∈ s.registry.types) :
      (s.graph.set t ((s.graph.node t).named name)).node u = s.graph.node u := by
    refine Graph.node_set_ne ?_
    rintro rfl
    exact ht.unregistered ⟨name', hu⟩
  constructor
  case below =>
    rintro u ⟨name', hu⟩
    change u < (s.graph.set t _).nodes.size
    rw [Graph.size_set]
    rcases List.mem_append.1 hu with hu | hu
    · exact h.below u ⟨name', hu⟩
    · cases List.mem_singleton.1 hu
      exact ht.size
  case names =>
    rw [List.map_append]
    refine List.nodup_append.2 ⟨h.names, List.nodup_singleton _, fun a ha b hb => ?_⟩
    rw [List.mem_singleton.1 hb]
    rintro rfl
    exact hname ha
  case table =>
    rw [List.map_append, List.map_map]
    refine List.nodup_append.2 ⟨h.table, ?_, fun a ha b hb => ?_⟩
    · have hdistinct := ht.distinct
      revert hdistinct
      cases s.graph.node t <;> simp [Node.constants, Node.Distinct, Function.comp_def]
    · rintro rfl
      exact hnew a (by simpa [Function.comp_def] using hb) ha
  case owned =>
    intro c k hk
    rcases List.mem_append.1 hk with hk | hk
    · obtain ⟨name', constants, n, ⟨hmem, own, hnode⟩, hrest⟩ := h.owned c k hk
      exact ⟨name', constants, n, ⟨List.mem_append_left _ hmem, own, (hother hmem).trans hnode⟩, hrest⟩
    · obtain ⟨⟨c', n⟩, hmem, heq⟩ := List.mem_map.1 hk
      cases heq
      refine ⟨name, _, n, ⟨List.mem_append_right _ (List.mem_cons_self), some name, ?_⟩, hmem, rfl⟩
      exact hself.trans (Node.constants_named hmem)
  case entered =>
    rintro name' u constants ⟨hu, own, hnode⟩ c n hmem
    rcases List.mem_append.1 hu with hu | hu
    · exact List.mem_append_left _ (h.entered name' u constants ⟨hu, own, (hother hu).symm.trans hnode⟩ c n hmem)
    · cases List.mem_singleton.1 hu
      refine List.mem_append_right _ (List.mem_map.2 ⟨(c, n), ?_, rfl⟩)
      rwa [Node.named_enum (hself.symm.trans hnode)]

theorem Consistent.register (h : s.Consistent) (ht : s.Nameless t) (name : String) :
    Consistent (Types.register {} name t s).2 := by
  rcases register_cases {} name t s with
    ⟨-, e, hfails⟩ | ⟨⟨hname, -, hnew⟩, ⟨e, hcheck, hfails⟩ | ⟨-, hdone⟩⟩
  · rw [hfails]
    exact h
  · -- then the type is no enumeration, and nothing was entered
    have hnone : (s.graph.node t).constants = [] := by
      cases hnode : s.graph.node t with
      | enum own constants => rw [checkLimits_enum hnode] at hcheck; cases hcheck
      | _ => rfl
    rw [hfails, Types.entered, hnone]
    simpa using h
  · rw [hdone]
    have howner : ∀ entry ∈ s.registry.constants, entry.2.owner ≠ t := by
      rintro ⟨c, k⟩ hk rfl
      obtain ⟨name', _, _, ⟨hmem, -⟩, -⟩ := h.owned c k hk
      exact ht.unregistered ⟨name', hmem⟩
    have hnamed := h.register_named ht hname hnew
    rw [← nameConstants_append howner] at hnamed
    exact hnamed

end Register

theorem Consistent.change {settling : Prop} (h : s.Consistent) (hchange : Change {} settling s s') :
    s'.Consistent := by
  cases hchange with
  | add _ => exact h.add
  | name name ht => exact h.register ht name
  | settle _ hlater => exact h.later hlater

theorem Consistent.known (h : s.Consistent) :
    ∀ c ∈ s.constantNames, c ∈ s.registry.constants.map (·.1) := by
  intro c hc
  obtain ⟨⟨name, entry⟩, hmem, hc⟩ := List.mem_flatMap.1 hc
  cases entry with
  | deferred => exact absurd hc List.not_mem_nil
  | settled t =>
    dsimp only at hc
    split at hc
    · rename_i own constants hnode
      obtain ⟨⟨c, n⟩, hcn, rfl⟩ := List.mem_map.1 hc
      exact List.mem_map_of_mem (h.entered name t constants ⟨hmem, own, hnode⟩ c n hcn)
    · exact absurd hc List.not_mem_nil

theorem consistent_basic : Consistent {} := by
  constructor
  case below => exact fun t ht => (sound_basic.usable ht).1
  case names => decide
  case table => exact List.nodup_nil
  case owned => exact fun c k hk => absurd hk List.not_mem_nil
  case entered =>
    rintro name t constants ⟨-, own, hnode⟩
    have hbasic : ∀ t, (Graph.basic.node t).constants = [] := by
      rintro (_ | _ | _ | _ | _) <;> rfl
    have hnone := hbasic t
    rw [show Graph.basic.node t = .enum own constants from hnode] at hnone
    intro c n hmem
    rw [show constants = [] from hnone] at hmem
    exact absurd hmem List.not_mem_nil

theorem admits_constant {k : Constant} {own : Option String} {constants : List (String × Nat)}
    (h : s.graph.node t = .enum own constants) :
    s.graph.admits t (.constant k) = .ok (k.owner == t && constants.any (·.1 == k.name)) := by
  simp [Graph.admits, Graph.admitsFrom, h]

end Chalkboard.Types

namespace Chalkboard.Reading

open Effects Chalkboard.Types

/-- Any text, read with no types but the basic ones and under the limits that hold by default. Whether or not
the reading ends in a fault, no type name is given twice, every constant in the table is one of exactly one
enumeration that has a name, and is that enumeration's own, and every constant of every such enumeration is in
the table. If the text is a program, every constant written in it has a value in every memory, which its own
enumeration admits and every other one refuses. -/
theorem table_matches_enumerations (environment : List (String × String)) (text : String)
    {result : Except Fault Syntax.Program} {types : Types}
    (h : (readProgram ⟨{}, environment⟩ text).run {} = (result, types)) :
    (types.registry.types.map (·.1)).Nodup ∧
    (types.registry.constants.map (·.1)).Nodup ∧
    (∀ c k, types.registry.constants.lookup c = some k → ∃ name constants n,
      types.Enumerates name k.owner constants ∧ (c, n) ∈ constants ∧ k = ⟨k.owner, some name, c, n⟩ ∧
      ∀ name' t constants', types.Enumerates name' t constants' → c ∈ constants'.map (·.1) →
        name' = name ∧ t = k.owner) ∧
    (∀ name t constants, types.Enumerates name t constants → ∀ c n, (c, n) ∈ constants →
      types.registry.constants.lookup c = some ⟨t, some name, c, n⟩) ∧
    ∀ p, result = .ok p → ∀ word ∈ p.constants, ∃ name constants k,
      types.Enumerates name k.owner constants ∧ k.name = word.text ∧
      (∀ memory indexing,
        Run.evalExpr ⟨types, memory, indexing⟩ (.literal .enum word) = .ok (.constant k)) ∧
      types.graph.admits k.owner (.constant k) = .ok true ∧
      ∀ name' t constants', types.Enumerates name' t constants' → t ≠ k.owner →
        types.graph.admits t (.constant k) = .ok false := by
  have hread := readProgram_leaves sound_basic ⟨{}, environment⟩ text
  rw [show readProgram ⟨{}, environment⟩ text {} = (result, types) from h] at hread
  have hs := (Course.keeps hread.course sound_basic consistent_basic fun _ _ _ hs => hs.change).2.2
  have hentered (name : String) (t : TypeId) (constants : List (String × Nat))
      (ht : types.Enumerates name t constants) (c : String) (n : Nat) (hc : (c, n) ∈ constants) :
      types.registry.constants.lookup c = some ⟨t, some name, c, n⟩ :=
    lookup_of_mem hs.table (hs.entered name t constants ht c n hc)
  refine ⟨hs.names, hs.table, fun c k hk => ?_, hentered, fun p hp word hword => ?_⟩
  · obtain ⟨name, constants, n, hname, hmem, heq⟩ := hs.owned c k (mem_of_lookup hk)
    refine ⟨name, constants, n, hname, hmem, heq, fun name' t constants' ht hc => ?_⟩
    obtain ⟨⟨c, m⟩, hcm, rfl⟩ := List.mem_map.1 hc
    have hsame := hentered name' t constants' ht c m hcm
    rw [hk, heq] at hsame
    cases hsame
    exact ⟨rfl, rfl⟩
  · obtain ⟨⟨c, k⟩, hk, hc⟩ := List.mem_map.1 (hs.known _ ((hread.result p hp).2.2 word hword))
    obtain ⟨name, constants, n, hname, hmem, heq⟩ := hs.owned c k hk
    obtain ⟨-, own, hnode⟩ := id hname
    have hword : k.name = word.text := by
      rw [heq]
      exact hc
    refine ⟨name, constants, k, hname, hword, fun memory indexing => ?_, ?_, fun name' t constants' ht hne => ?_⟩
    · have hlookup : types.registry.constants.lookup word.text = some k := hc ▸ lookup_of_mem hs.table hk
      simp [Run.evalExpr, Run.literalValue, Registry.constant, hlookup, Except.map]
    · rw [admits_constant hnode, heq]
      simpa using ⟨n, hmem⟩
    · obtain ⟨-, own', hnode'⟩ := ht
      rw [admits_constant hnode']
      simp [Ne.symm hne]

/-- Two enumerations, and a constant of the second in an index. -/
def twoEnumerations : String :=
  "type a = enumerate\nX\nY\nend enumerate\ntype b = enumerate\nZ\nend enumerate\nvar v: b\nv[Z] := X\n"

theorem twoEnumerations_tables :
    passes (readProgram {} twoEnumerations) {} (fun p types =>
      p.constants.map (·.text) == ["Z", "X"] &&
        types.registry.constants.map (fun e => (e.1, e.2.number)) == [("X", 1), ("Y", 2), ("Z", 1)]) = true := by
  decide +kernel

theorem twoEnumerations_match :
    ∃ p types, (readProgram {} twoEnumerations).run {} = (.ok p, types) ∧
      p.constants.map (·.text) = ["Z", "X"] ∧
      types.registry.constants.map (fun e => (e.1, e.2.number)) = [("X", 1), ("Y", 2), ("Z", 1)] ∧
      (types.registry.types.map (·.1)).Nodup ∧
      ∀ word ∈ p.constants, ∃ k, k.name = word.text ∧
        Run.evalExpr ⟨types, none, true⟩ (.literal .enum word) = .ok (.constant k) ∧
        types.graph.admits k.owner (.constant k) = .ok true := by
  obtain ⟨p, types, h, hcheck⟩ := of_passes twoEnumerations_tables
  rw [Bool.and_eq_true] at hcheck
  obtain ⟨hnames, -, -, -, hwords⟩ := table_matches_enumerations [] twoEnumerations h
  refine ⟨p, types, h, eq_of_beq hcheck.1, eq_of_beq hcheck.2, hnames, fun word hword => ?_⟩
  obtain ⟨_, _, k, -, hname, heval, hadmits, -⟩ := hwords p rfl word hword
  exact ⟨k, hname, heval none true, hadmits⟩

end Chalkboard.Reading
