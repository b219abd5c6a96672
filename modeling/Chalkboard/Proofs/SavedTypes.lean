import Chalkboard.Proofs.CompleteTypes
import Chalkboard.Proofs.DeclarationOrder
import Chalkboard.Session

/-! Types that one program saved and the next goes on with. No name stands twice in a registry that was
read, so loading it gives all names back, with the same types. A program that declares no types of its own
then leaves every complete type as it was: it only adds types and settles targets that were open. -/

namespace Chalkboard.Session

open Effects
open Chalkboard.Types (TypesM Registry Registered Sound)

/-- Saved types as they are taken into a new registry. -/
def restored (s : Types) : Types :=
  { graph := s.graph
    registry := ⟨s.registry.types.foldl (fun known (name, entry) => Types.upsert name entry known)
      Registry.basic.types, s.registry.constants⟩ }

section Load

variable {s : Types}

theorem load_saved (memory : Memory) (s now : Types) :
    load (some ⟨memory, s⟩) (fresh false (some ⟨memory, s⟩) now) = (.ok (), restored s) := by
  have hoverlap : Registry.overlap Registry.basic.constants s.registry.constants = [] := by
    simp [Registry.overlap, Registry.basic]
  rw [load, bind_apply, get_apply]
  dsimp only [fresh]
  rw [if_neg Bool.false_ne_true, Registry.merge, hoverlap]
  rfl

variable (hsingle : s.registry.types.Pairwise fun e f => e.1 ≠ f.1)

include hsingle

theorem restored_mem {e : String × Types.Entry} (h : e ∈ s.registry.types) :
    e ∈ (restored s).registry.types := by
  have hnodup : (s.registry.types.map (·.1)).Nodup := List.pairwise_map.2 hsingle
  refine Types.mem_of_lookup ((Types.lookup_foldl_upsert _ _ hnodup e.1).trans ?_)
  rw [Types.lookup_of_mem hnodup h]
  rfl

theorem restored_registered {t : Types.TypeId} (h : s.Registered t) : (restored s).Registered t :=
  h.imp fun _ hmem => restored_mem hsingle hmem

theorem restored_sound (hs : s.Sound) (hbasic : Registry.basic.types ⊆ s.registry.types) :
    (restored s).Sound where
  graph := hs.graph
  names entry hmem := by
    refine Types.forall_foldl_upsert (P := fun entry => ∃ t, entry = .settled t ∧
      t < s.graph.nodes.size ∧ ∃ u, s.graph.closure t = .ok u) s.registry.types Registry.basic.types
      (fun entry hentry => ?_) (fun entry hentry => ?_) entry hmem
    · exact hs.names entry (hbasic hentry)
    · exact hs.names entry hentry
  standby _ hmem := restored_mem hsingle (hbasic hmem)
  tied t u hu := (hs.tied t u hu).imp_left (restored_registered hsingle)

end Load

end Chalkboard.Session

namespace Chalkboard.Reading

open Effects Chalkboard.Types
open Syntax (TypeDeclaration Program)

section Plain

variable {setting : Setting} {s s' : Types}

theorem reading_still {α : Type} {r : Read α} {a : α} {c c' : Cursor}
    (h : reading r c s = (.ok (a, c'), s')) : s' = s := by
  rw [reading_apply, Prod.mk.injEq] at h
  exact h.2.symm

theorem readTypeSection_none {fuel : Nat} {c c' : Cursor}
    (h : readTypeSection setting fuel c s = (.ok ([], c'), s')) : s' = s := by
  cases fuel with
  | zero =>
    cases h
    rfl
  | succ fuel =>
    obtain ⟨t, c₁, s₁, hlook, h⟩ := declare_bind_ok h
    cases reading_still hlook
    split at h
    · obtain ⟨d, c₂, s₂, -, h⟩ := declare_bind_ok h
      obtain ⟨ds, c₃, s₃, -, h⟩ := declare_bind_ok h
      cases h
    · cases h
      rfl

theorem readProcedures_still {fuel n : Nat} {c c' : Cursor}
    (h : readProcedures fuel c s = (.ok (n, c'), s')) : s' = s := by
  have hheeds : Heeds (fun _ _ => False) s (readProcedures fuel) _ := readProcedures_heeds fuel
  have hcourse := (hheeds c).course
  rw [h] at hcourse
  rcases hcourse.cases_tail with rfl | ⟨_, -, ⟨⟩⟩
  rfl

theorem readHead_plain {procedures : Nat} {c c' : Cursor}
    (h : readHead setting c s = (.ok (([], procedures), c'), s')) : s' = s := by
  obtain ⟨fuel, c₁, s₁, hfuel, h⟩ := declare_bind_ok h
  cases reading_still hfuel
  obtain ⟨types, c₂, s₂, htypes, h⟩ := declare_bind_ok h
  obtain ⟨fuel', c₃, s₃, hfuel', h⟩ := declare_bind_ok h
  cases reading_still hfuel'
  obtain ⟨n, c₄, s₄, hprocedures, h⟩ := declare_bind_ok h
  cases h
  exact (readProcedures_still hprocedures).trans (readTypeSection_none htypes)

theorem readAnnounced_plain {text : String} {a : Announcement}
    (h : readAnnounced setting text s = (.ok a, s')) (hnone : a.types = []) : s' = s := by
  obtain ⟨start, -, hrest⟩ := lift_bind_ok h
  obtain ⟨⟨⟨types, procedures⟩, c⟩, s₂, hhead, hrest⟩ := bind_ok hrest
  obtain ⟨_, s₃, hget, hrest⟩ := bind_ok hrest
  cases hget
  obtain ⟨_, -, hrest⟩ := lift_bind_ok hrest
  cases hrest
  cases hnone
  exact readHead_plain hhead

theorem declareAnnounced_types {a : Announcement} {p : Program}
    (h : declareAnnounced a s = (.ok p, s')) : p.types = a.types := by
  obtain ⟨p₁, s₁, hdeclare, h⟩ := bind_ok h
  obtain ⟨_, s₂, -, h⟩ := bind_ok h
  cases h
  obtain ⟨ds, s₃, -, hdeclare⟩ := bind_ok hdeclare
  cases hdeclare
  rfl

theorem readProgram_names {text : String} {p : Program} (h : readProgram setting text {} = (.ok p, s)) :
    (s.registry.types.Pairwise fun e f => e.1 ≠ f.1) ∧ Registry.basic.types ⊆ s.registry.types := by
  obtain ⟨a, s₀, hannounced⟩ := announced_of_read sound_basic h
  refine ⟨?_, (readProgram_grows sound_basic h).names⟩
  rw [(readProgram_of_announced sound_basic hannounced).2] at h
  rw [(declareAnnounced_ok h).1.registry]
  exact (readAnnounced_neat hannounced).single

end Plain

/-- Two programs that are read one after the other: the second goes on with the types that the first saved,
and declares none of its own. -/
structure Resumes (p : Program) (s : Types) (p' : Program) (s' : Types) : Prop where
  sound : s.Sound
  sound' : s'.Sound
  size : s.graph.nodes.size ≤ s'.graph.nodes.size
  node {t : TypeId} (ht : s.graph.Complete t) : s'.graph.node t = s.graph.node t
  constants : s'.registry.constants = s.registry.constants
  complete : ∀ d ∈ p.declarations, s.graph.Complete d.type
  complete' : ∀ d ∈ p'.declarations, s'.graph.Complete d.type

theorem resumes_of_read {setting setting' : Setting} {text text' : String}
    {p p' : Program} {s s' now : Types} {memory : Memory} (h : readProgram setting text {} = (.ok p, s))
    (h' : (do
      Session.load (some ⟨memory, s⟩)
      readProgram setting' text') (Session.fresh false (some ⟨memory, s⟩) now) = (.ok p', s'))
    (hnone : p'.types = []) : Resumes p s p' s' := by
  obtain ⟨hsound, hshut, hvariables⟩ := readProgram_shut h
  obtain ⟨hsingle, hbasic⟩ := readProgram_names h
  rw [bind_apply, Session.load_saved] at h'
  dsimp only at h'
  have hrestored := Session.restored_sound hsingle hsound hbasic
  obtain ⟨hsound', hshut', hvariables'⟩ := readProgram_shut_from hrestored h'
  obtain ⟨a, s₀, hannounced⟩ := announced_of_read hrestored h'
  rw [(readProgram_of_announced hrestored hannounced).2] at h'
  cases readAnnounced_plain hannounced ((declareAnnounced_types h').symm.trans hnone)
  have hext := (declareAnnounced_ok h').1
  exact {
    sound := hsound
    sound' := hsound'
    size := hext.size
    node := fun ht => hext.node_eq ht.lt_size (ht _ .refl).2.1
    constants := by rw [hext.registry]; rfl
    complete := fun d hd => hsound.complete hshut (hvariables d hd).2 (hvariables d hd).1
    complete' := fun d hd => hsound'.complete hshut' (hvariables' d hd).2 (hvariables' d hd).1 }

end Chalkboard.Reading
