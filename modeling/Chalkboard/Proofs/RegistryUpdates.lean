import Chalkboard.Proofs.ReadTypes

/-! What a registry keeps of an update that fails. A name is given only after all checks, and constants are
compared before any is entered. But the constants of an enumeration are entered before its limits are checked,
and the names of another registry are taken over before its constants are compared. -/

namespace Chalkboard.Types

open Effects

/-- An enumeration that leaves its constants in the table and gets no name: nothing speaks against it but the
limits, and these allow no type at all. -/
structure Spills (limits : Limits) (name : String) (t : TypeId) (s : Types) : Prop where
  welcome : s.Welcomes name t
  enum : ∃ own c constants, s.graph.node t = .enum own (c :: constants)
  depth : ∃ depth, limits.typeDepth = some depth ∧ depth < 1

variable {e : Fault} {limits : Limits} {name : String} {s s' : Types} {t : TypeId}

theorem exceeds_iff {limit : Option Int} {n : Int} :
    exceeds limit n = true ↔ ∃ bound, limit = some bound ∧ bound < n := by
  cases limit <;> simp [exceeds]

theorem entered_eq_iff : s.entered t = s.registry.constants ↔ (s.graph.node t).constants = [] := by
  rw [entered, List.append_right_eq_self, List.map_eq_nil_iff]

theorem constants_eq_cons {n : Node} : n.constants ≠ [] ↔ ∃ own c constants, n = .enum own (c :: constants) := by
  cases n with
  | enum own constants => cases constants <;> simp [Node.constants]
  | _ => simp [Node.constants]

theorem spills_iff : Spills limits name t s ↔
    s.Welcomes name t ∧ (s.graph.node t).constants ≠ [] ∧ s.graph.checkLimits limits t ≠ .ok () := by
  constructor
  · rintro ⟨hwelcome, ⟨own, c, constants, hnode⟩, hdepth⟩
    refine ⟨hwelcome, constants_eq_cons.2 ⟨own, c, constants, hnode⟩, ?_⟩
    rw [checkLimits_enum hnode, if_pos (exceeds_iff.2 hdepth)]
    exact fun h => by cases h
  · rintro ⟨hwelcome, hconstants, hcheck⟩
    obtain ⟨own, c, constants, hnode⟩ := constants_eq_cons.1 hconstants
    refine ⟨hwelcome, ⟨own, c, constants, hnode⟩, exceeds_iff.1 ?_⟩
    by_contra hdepth
    rw [checkLimits_enum hnode, if_neg hdepth] at hcheck
    exact hcheck rfl

theorem upsert_same {β : Type} {b : β} {entries : List (String × β)} (h : entries.lookup name = some b) :
    upsert name b entries = entries := by
  induction entries with
  | nil => cases h
  | cons entry rest ih =>
    obtain ⟨n, old⟩ := entry
    rw [List.lookup_cons] at h
    rw [upsert]
    by_cases hname : name = n
    · subst hname
      rw [beq_self_eq_true] at h ⊢
      cases h
      rfl
    · rw [beq_false_of_ne hname] at h
      rw [beq_false_of_ne (Ne.symm hname), ih h]
      rfl

theorem foldl_upsert_same {β : Type} {entries known : List (String × β)}
    (h : ∀ name b, (name, b) ∈ entries → known.lookup name = some b) :
    entries.foldl (fun known (name, b) => upsert name b known) known = known := by
  induction entries with
  | nil => rfl
  | cons entry rest ih =>
    obtain ⟨n, b⟩ := entry
    rw [List.foldl_cons]
    dsimp only
    rw [upsert_same (h n b List.mem_cons_self)]
    exact ih fun name b hmem => h name b (List.mem_cons_of_mem _ hmem)

theorem mergeStandby_error (h : mergeStandby s = (.error e, s')) :
    s' = { s with registry := { s.registry with
      types := s.standby.types.foldl (fun known (name, entry) => upsert name entry known) s.registry.types } } := by
  rw [mergeStandby, bind_apply, get_apply] at h
  dsimp only [Registry.merge] at h
  rcases hoverlap : Registry.overlap s.registry.constants s.standby.constants with _ | ⟨c, rest⟩
  · rw [hoverlap] at h
    cases h
  · rw [hoverlap] at h
    cases h
    rfl

/-- Any types, limits, type and name, and another registry that stands by. If the type is refused the name, the
names of types stay as they were; the constants stay as they were too, unless the type spills its own into the
table, and then these are behind those that were there. If the other registry is refused, the constants stay as
they were; but the names are those of both registries already, a type of the other one going before its
namesake. So they stay as they were only where every type of the other registry was there under its name. -/
theorem failed_update_leaves_traces (limits : Limits) (name : String) (t : TypeId) (s : Types) :
    (∀ e s', register limits name t s = (.error e, s') →
      s'.registry.types = s.registry.types ∧
      (s'.registry.constants = s.registry.constants ↔ ¬Spills limits name t s) ∧
      (Spills limits name t s → s'.registry.constants = s.entered t)) ∧
    ((s.standby.types.map (·.1)).Nodup → ∀ e s', mergeStandby s = (.error e, s') →
      s'.registry.constants = s.registry.constants ∧
      (∀ n, s'.registry.types.lookup n = (s.standby.types.lookup n).or (s.registry.types.lookup n)) ∧
      (s'.registry.types = s.registry.types ↔
        ∀ n entry, (n, entry) ∈ s.standby.types → s.registry.types.lookup n = some entry)) := by
  refine ⟨fun e s' h => ?_, fun hnodup e s' h => ?_⟩
  · rw [spills_iff]
    rcases register_cases limits name t s with
      ⟨hrefused, e', hfails⟩ | ⟨hwelcome, ⟨e', hcheck, hfails⟩ | ⟨-, hdone⟩⟩
    · cases hfails.symm.trans h
      exact ⟨rfl, iff_of_true rfl fun hspills => hrefused hspills.1, fun hspills => absurd hspills.1 hrefused⟩
    · cases hfails.symm.trans h
      refine ⟨rfl, ?_, fun _ => rfl⟩
      rw [hcheck]
      simp [entered_eq_iff, hwelcome]
    · cases hdone.symm.trans h
  · rw [mergeStandby_error h]
    have hlookup (n : String) := lookup_foldl_upsert s.standby.types s.registry.types hnodup n
    refine ⟨rfl, hlookup, fun hsame n entry hmem => ?_, foldl_upsert_same⟩
    have hfound := hlookup n
    dsimp only at hsame
    rwa [hsame, lookup_of_mem hnodup hmem] at hfound

/-- An enumeration that has no name. -/
def lone : Types := ((addEnum ["A"]).run {}).2

/-- An enumeration, and another one with the same constant in the registry that stands by. -/
def clashing : Types :=
  ((do
    register {} "c" (← addEnum ["A"])
    onStandby (do register {} "d" (← addEnum ["A"])) : TypesM Unit).run {}).2

theorem lone_refused : fails (register { typeDepth := some 0 } "c" 4) lone (fun _ s =>
    s.registry.constants.map (·.1) == ["A"] && lone.registry.constants.map (·.1) == []) = true := by
  decide +kernel

theorem clashing_refused : fails mergeStandby clashing (fun _ s =>
    s.registry.types.map (·.1) == ["int", "real", "bool", "char", "c", "d"] &&
      clashing.registry.types.map (·.1) == ["int", "real", "bool", "char", "c"]) = true := by
  decide +kernel

theorem refused_leave_traces :
    Spills { typeDepth := some 0 } "c" 4 lone ∧
    (∃ e s', register { typeDepth := some 0 } "c" 4 lone = (.error e, s') ∧
      s'.registry.constants = lone.entered 4) ∧
    (clashing.standby.types.map (·.1)).Nodup ∧
    ∃ e s', mergeStandby clashing = (.error e, s') ∧
      s'.registry.constants = clashing.registry.constants ∧
      s'.registry.types.lookup "d" =
        (clashing.standby.types.lookup "d").or (clashing.registry.types.lookup "d") := by
  have hspills : Spills { typeDepth := some 0 } "c" 4 lone :=
    ⟨⟨by decide +kernel, by decide +kernel, by decide +kernel⟩, ⟨none, ("A", 1), [], rfl⟩, 0, rfl, by decide⟩
  have hnodup : (clashing.standby.types.map (·.1)).Nodup := by decide +kernel
  obtain ⟨e, s₁, hregister, -⟩ := of_fails lone_refused
  obtain ⟨e', s₂, hmerge, -⟩ := of_fails clashing_refused
  have hkept := (failed_update_leaves_traces { typeDepth := some 0 } "c" 4 lone).1 e s₁ hregister
  obtain ⟨hsame, hlookup, -⟩ := (failed_update_leaves_traces {} "c" 4 clashing).2 hnodup e' s₂ hmerge
  exact ⟨hspills, ⟨e, s₁, hregister, hkept.2.2 hspills⟩, hnodup, e', s₂, hmerge, hsame, hlookup "d"⟩

/-- A name that is refused leaves a constant behind, and a registry that is refused leaves a name behind. -/
theorem updates_not_all_or_nothing :
    (∃ e s', register { typeDepth := some 0 } "c" 4 lone = (.error e, s') ∧
      s'.registry.constants.map (·.1) ≠ lone.registry.constants.map (·.1)) ∧
    ∃ e s', mergeStandby clashing = (.error e, s') ∧
      s'.registry.types.map (·.1) ≠ clashing.registry.types.map (·.1) := by
  obtain ⟨e, s₁, hregister, hcheck⟩ := of_fails lone_refused
  obtain ⟨e', s₂, hmerge, hcheck'⟩ := of_fails clashing_refused
  simp only [Bool.and_eq_true, beq_iff_eq] at hcheck hcheck'
  refine ⟨⟨e, s₁, hregister, ?_⟩, e', s₂, hmerge, ?_⟩
  · rw [hcheck.1, hcheck.2]
    decide
  · rw [hcheck'.1, hcheck'.2]
    decide

end Chalkboard.Types
