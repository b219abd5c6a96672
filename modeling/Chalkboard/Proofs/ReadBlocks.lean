import Chalkboard.Proofs.Linking
import Chalkboard.Proofs.WrittenTypes

/-! A program that was read has no loop with nothing to repeat, so it does the same whether its links or its
blocks are followed. And the tokens of its declarations and sentences came in their order. -/

namespace Chalkboard.Reading

open Syntax (Program Declaration TypeDeclaration blockLines)
open Run (FilledAll)
open Effects

section Declarations

variable {scope : Scope}

theorem scanLimit_past (spot : Spot) (c : Cursor) : Yields (scanLimit scope spot) c fun _ c' => Past c [] c' := by
  refine .look ?_
  split
  · exact .lift fun _ => .advance fun _ h₁ => .pure (.step h₁ .stay)
  · exact (readVariable_takes scope c).bind fun _ _ hv => .pure hv.past.skip

theorem scanAxis_past (c : Cursor) : Yields (scanAxis scope) c fun _ c' => Past c [] c' := by
  refine (scanLimit_past _ c).bind fun _ _ hfirst => .look (.ite ?_ (.pure hfirst))
  exact .advance fun c₂ h₂ => (scanLimit_past _ c₂).bind fun _ _ hlast => .pure (hfirst.append (.step h₂ hlast))

theorem scanAxes_past (fuel : Nat) (c : Cursor) : Yields (scanAxes scope fuel) c fun _ c' => Past c [] c' := by
  induction fuel generalizing c with
  | zero => exact refuse_yields
  | succ fuel ih =>
    refine (scanAxis_past c).bind fun _ _ haxis => .look (.ite ?_ ?_)
    · exact .advance fun c₂ h₂ => (ih c₂).bind fun _ _ hrest => .pure (haxis.append (.step h₂ hrest))
    · exact .expect fun _ h₂ => .pure (haxis.append (.step h₂ .stay))

theorem scanType_past (fuel : Nat) (c : Cursor) : Yields (scanType scope fuel) c fun _ c' => Past c [] c' := by
  induction fuel generalizing c with
  | zero => exact refuse_yields
  | succ fuel ih =>
    refine .look ?_
    split
    iterate 2 exact .advance fun _ h₁ => .pure (.step h₁ .stay)
    · exact .advance fun _ h₁ => .advance fun c₂ h₂ => (ih c₂).bind fun _ _ h => .pure (.step h₁ (.step h₂ h))
    · exact .advance fun _ h₁ => .advance fun c₂ h₂ => (scanAxes_past fuel c₂).bind fun _ _ haxes =>
        .advance fun c₄ h₄ => (ih c₄).bind fun _ _ h => .pure (.step h₁ (.step h₂ (haxes.append (.step h₄ h))))
    · exact refuse_yields

theorem scanDeclaration_past (c : Cursor) : Yields (scanDeclaration scope) c fun v c' => Past c [v.1.line] c' := by
  refine .advance fun c₁ h₁ => (readVariable_takes scope c₁).bind fun v _ hv => ?_
  refine .expect fun _ h₃ => .rounds fun fuel =>
    (scanType_past fuel _).bind fun form c₄ hform => .look (.ite ?_ (.ite ?_ ?_))
  · exact .never refuse_yields
  · exact .never fun _ _ hread => by cases hread
  · exact .advance fun _ h₅ => .pure (.step h₁ (hv.past.append (.step h₃ (hform.append (.step h₅ .stay)))))

end Declarations

section Program

variable {setting : Setting} {c c' : Cursor} {s s' : Types}

theorem readDeclaration_past {d : Declaration} (h : readDeclaration setting c s = (.ok (d, c'), s')) :
    Past c [d.line] c' := by
  have hfollows : Follows (readDeclaration setting) _ declare c s := readDeclaration_follows c
  rw [Follows, h] at hfollows
  rcases hscan : scanDeclaration (scopeIn setting s) c with e | ⟨v, c₁⟩
  · rw [hscan] at hfollows
    obtain ⟨e, he⟩ := hfollows
    cases he
  · rw [hscan] at hfollows
    dsimp only at hfollows
    rcases hdeclare : declare v s with ⟨e | d', s₁⟩
    · rw [hdeclare] at hfollows
      cases hfollows
    · rw [hdeclare] at hfollows
      cases hfollows
      obtain ⟨target, s₂, -, hdeclare⟩ := bind_ok hdeclare
      obtain ⟨type, s₃, -, hdeclare⟩ := bind_ok hdeclare
      cases hdeclare
      exact scanDeclaration_past c v _ hscan

theorem readVariableSection_past {fuel : Nat} {ds : List Declaration}
    (h : readVariableSection setting fuel c s = (.ok (ds, c'), s')) : Past c (ds.map (·.line)) c' := by
  induction fuel generalizing c s ds with
  | zero =>
    cases h
    exact .stay
  | succ fuel ih =>
    obtain ⟨t, c₁, s₁, hlook, h⟩ := declare_bind_ok h
    cases hlook
    split at h
    · obtain ⟨d, c₂, s₂, hd, h⟩ := declare_bind_ok h
      obtain ⟨ds, c₃, s₃, hds, h⟩ := declare_bind_ok h
      cases h
      exact (readDeclaration_past hd).append (ih hds)
    · cases h
      exact .stay

/-- A cursor that looks at a token found in a text. -/
def Came (c : Cursor) : Prop := ∃ s spot before, Source.next s spot before = .ok c

theorem Steps.next (h : Steps c c') : ∃ spot, c.source.next spot (some c.look) = .ok c' := by
  obtain ⟨spot, h⟩ := h
  obtain ⟨found, h, hset⟩ := except_bind_ok (x := c.source.next spot (some c.look) >>= fun c' => .ok (c', c))
    (f := fun found => .ok ((), found.1)) h
  obtain ⟨c₁, hnext, h⟩ := except_bind_ok h
  cases h
  cases hset
  exact ⟨spot, hnext⟩

theorem Steps.came (h : Steps c c') : Came c' := by
  obtain ⟨spot, hnext⟩ := h.next
  exact ⟨_, _, _, hnext⟩

theorem advance_came {spot : Spot} {found : Unit}
    (h : reading (advance spot) c s = (.ok (found, c'), s')) : Came c' := by
  rw [reading_apply] at h
  exact Steps.came ⟨spot, (Prod.mk.inj h).1⟩

theorem readTypeDeclaration_came {d : TypeDeclaration}
    (h : readTypeDeclaration setting c s = (.ok (d, c'), s')) : Came c' := by
  iterate 6 obtain ⟨_, _, _, -, h⟩ := declare_bind_ok h
  dsimp only at h
  split at h
  · obtain ⟨_, _, _, h, -⟩ := declare_bind_ok h
    cases h
  obtain ⟨_, _, _, -, h⟩ := declare_bind_ok h
  split at h
  · cases h
  obtain ⟨_, _, _, -, h⟩ := declare_bind_ok h
  obtain ⟨_, _, _, hadvance, h⟩ := declare_bind_ok h
  cases h
  exact advance_came hadvance

theorem readTypeSection_came {fuel : Nat} {ds : List TypeDeclaration} (hc : Came c)
    (h : readTypeSection setting fuel c s = (.ok (ds, c'), s')) : Came c' := by
  induction fuel generalizing c s ds with
  | zero =>
    cases h
    exact hc
  | succ fuel ih =>
    obtain ⟨t, c₁, s₁, hlook, h⟩ := declare_bind_ok h
    cases hlook
    split at h
    · obtain ⟨d, c₂, s₂, hd, h⟩ := declare_bind_ok h
      obtain ⟨ds, c₃, s₃, hds, h⟩ := declare_bind_ok h
      cases h
      exact ih (readTypeDeclaration_came hd) hds
    · cases h
      exact hc

theorem readProcedures_came {fuel n : Nat} (hc : Came c)
    (h : readProcedures fuel c s = (.ok (n, c'), s')) : Came c' := by
  induction fuel generalizing c s n with
  | zero =>
    cases h
    exact hc
  | succ fuel ih =>
    obtain ⟨t, c₁, s₁, hlook, h⟩ := declare_bind_ok h
    cases hlook
    split at h
    · obtain ⟨_, c₂, s₂, hadvance, h⟩ := declare_bind_ok h
      obtain ⟨n, c₃, s₃, hmore, h⟩ := declare_bind_ok h
      cases h
      exact ih (advance_came hadvance) hmore
    · cases h
      exact hc

theorem scanEnd_past (scope : Scope) (c : Cursor) :
    Yields (scanEnd scope) c fun sentences c' => FilledAll sentences ∧ Past c (blockLines sentences) c' := by
  refine (readSentences_takes scope c).bind fun sentences c₁ ⟨hfilled, htook⟩ =>
    .look (.ite ?_ (.pure ⟨hfilled, htook.past⟩))
  exact .never refuse_yields

theorem readProgram_past {text : String} {p : Program} (h : (readProgram setting text).run s = (.ok p, s')) :
    FilledAll p.sentences ∧
      ∃ c c', Came c ∧ Past c (p.declarations.map (·.line) ++ blockLines p.sentences) c' := by
  obtain ⟨q, s₁, hread, h⟩ := bind_ok h
  obtain ⟨-, s₂, -, h⟩ := bind_ok h
  cases h
  obtain ⟨start, hstart, h⟩ := lift_bind_ok hread
  obtain ⟨⟨q, c'⟩, s₄, hq, h⟩ := bind_ok h
  cases h
  rw [readSections_eq] at hq
  obtain ⟨head, c, s₅, hhead, hrest⟩ := declare_bind_ok hq
  obtain ⟨_, _, _, hrounds, hhead⟩ := declare_bind_ok hhead
  cases hrounds
  obtain ⟨types, c₁, s₆, htypes, hhead⟩ := declare_bind_ok hhead
  obtain ⟨_, _, _, hrounds, hhead⟩ := declare_bind_ok hhead
  cases hrounds
  obtain ⟨n, c₂, s₇, hprocedures, hhead⟩ := declare_bind_ok hhead
  cases hhead
  obtain ⟨_, _, _, hrounds, hrest⟩ := declare_bind_ok hrest
  cases hrounds
  obtain ⟨ds, c₃, s₈, hds, hrest⟩ := declare_bind_ok hrest
  obtain ⟨sentences, c₄, s₉, hsentences, hrest⟩ := declare_bind_ok hrest
  cases hrest
  rw [readEnd_reads] at hsentences
  obtain ⟨hfilled, hpast⟩ := scanEnd_past _ c₃ sentences _ (Prod.mk.inj hsentences).1
  exact ⟨hfilled, c, c', readProcedures_came (readTypeSection_came ⟨_, _, _, hstart⟩ htypes) hprocedures,
    (readVariableSection_past hds).append hpast⟩

end Program

/-- A program that was read, run for any number of steps on any memory: following the links, which are
those made piece by piece while it was put together, performs the same actions with the same memories,
the same count and the same fault as the recursion on blocks; and when the run comes to its end, no
counting loop is in progress. -/
theorem links_run_as_blocks {setting : Setting} {text : String} {types types' : Types} {p : Program}
    (h : (readProgram setting text).run types = (.ok p, types')) (f : Run.Frame)
    (memory : Option Memory) (n : Nat) :
    (∀ place item, p.items[place]? = some item → p.links place = item.next) ∧
      Run.InStep (Run.linked f p memory n) (Run.nested f p memory n) :=
  ⟨fun _ _ hi => Syntax.links_eq_next p hi, Run.linked_inStep f (readProgram_past h).1 memory n⟩

/-- A counting loop around a branching with one empty branch and a loop in the other. -/
def nestedLoops : String :=
  "var i: int\nfor i := 1 to 2 do\nif i == 1 then\nelse\nwhile i < 2 do\nskip\nod\nfi\nod\n"

theorem nestedLoops_places :
    passes (readProgram {} nestedLoops) {} (fun p types =>
      (Run.linked ⟨types, {}, true⟩ p none 50).2.seen.map (·.place) ==
        [some 0, some 1, some 2, some 1, some 2, some 3, some 1]) = true := by
  decide +kernel

theorem nestedLoops_run_as_blocks :
    ∃ p types, (readProgram {} nestedLoops).run {} = (.ok p, types) ∧
      (Run.linked ⟨types, {}, true⟩ p none 50).2.seen.map (·.place) =
        [some 0, some 1, some 2, some 1, some 2, some 3, some 1] ∧
      (∀ place item, p.items[place]? = some item → p.links place = item.next) ∧
      Run.InStep (Run.linked ⟨types, {}, true⟩ p none 50) (Run.nested ⟨types, {}, true⟩ p none 50) := by
  obtain ⟨p, types, h, hplaces⟩ := of_passes nestedLoops_places
  exact ⟨p, types, h, eq_of_beq hplaces, links_run_as_blocks h ⟨types, {}, true⟩ none 50⟩

end Chalkboard.Reading
