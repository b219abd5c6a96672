import Chalkboard.Proofs.Equality
import Chalkboard.Proofs.Sessions

/-! The values of cells. The value of an array is a list, nested once for each further axis, and that of a
tuple a record with its fields. In a memory in keeping with the types every value is equal to itself, as
long as no leaf holds an undefined number; so what stands under a key stays the same from one frame to the
next if it stays equal, apart from constants. -/

namespace Chalkboard.Memory

open Effects
open Chalkboard.Types (TypeId Graph Fits)
open Timeline (mapM_ok map_eq_map)
open Run (undefinedLeaves undefinedInParts undefinedInFields isUndefined)

section Values

variable {g : Graph}

theorem forall₂_getElem? {α β : Type} {R : α → β → Prop} {xs : List α} {ys : List β}
    (h : List.Forall₂ R xs ys) {i : Nat} {y : β} (hy : ys[i]? = some y) : ∃ x, xs[i]? = some x ∧ R x y := by
  induction h generalizing i with
  | nil => cases hy
  | cons hxy _ ih =>
    cases i with
    | zero =>
      cases hy
      exact ⟨_, rfl, hxy⟩
    | succ i => exact ih hy

theorem partValues_ok {parts : List Cell} {vs : List Value} (h : Cell.partValues g parts = .ok vs) :
    List.Forall₂ (fun c v => c.value g = .ok v) parts vs := by
  induction parts generalizing vs with
  | nil =>
    cases h
    exact .nil
  | cons c rest ih =>
    rw [Cell.partValues] at h
    obtain ⟨v, hv, h⟩ := except_bind_ok h
    obtain ⟨ws, hws, h⟩ := except_bind_ok h
    cases h
    exact .cons hv (ih hws)

theorem fieldValues_ok {parts : List (String × Cell)} {fields : List (String × Value)}
    (h : Cell.fieldValues g parts = .ok fields) :
    List.Forall₂ (fun c v => v.1 = c.1 ∧ c.2.value g = .ok v.2) parts fields := by
  induction parts generalizing fields with
  | nil =>
    cases h
    exact .nil
  | cons part rest ih =>
    obtain ⟨name, c⟩ := part
    rw [Cell.fieldValues] at h
    obtain ⟨v, hv, h⟩ := except_bind_ok h
    obtain ⟨ws, hws, h⟩ := except_bind_ok h
    cases h
    exact .cons ⟨rfl, hv⟩ (ih hws)

theorem mem_pieces {size : Nat} {items piece : List Value} (h : piece ∈ Cell.pieces size items) :
    piece ⊆ items := by
  obtain ⟨i, -, rfl⟩ := List.mem_map.1 h
  exact fun v hv => List.mem_of_mem_drop (List.mem_of_mem_take hv)

theorem nest_regular {lengths : List Nat} {items : List Value} {v : Value}
    (h : Cell.nest lengths items = .ok v) (hitems : ∀ item ∈ items, item.Regular) : v.Regular := by
  induction lengths generalizing items v with
  | nil => cases h
  | cons n rest ih =>
    obtain _ | ⟨k, rest⟩ := rest
    · cases h
      exact .list hitems
    · rw [Cell.nest] at h
      dsimp only at h
      split at h
      · cases h
      · obtain ⟨rows, hrows, h⟩ := except_bind_ok h
        cases h
        refine .list fun row hrow => ?_
        obtain ⟨i, hi⟩ := List.getElem?_of_mem hrow
        obtain ⟨piece, hpiece, hrow⟩ := forall₂_getElem? (mapM_ok hrows) hi
        exact ih hrow fun item hitem => hitems item (mem_pieces (List.mem_of_getElem? hpiece) hitem)

theorem Shaped.regular (hnames : ∀ t, (g.node t).Distinct) {t : TypeId} {c : Cell} (h : Shaped g t c)
    (hleaves : ∀ path a u v, c.at? path = some (.leaf a u v) → v.isSimple = true ∧ v.mark?.isSome = true)
    {v : Value} (hv : c.value g = .ok v) : v.Regular := by
  induction h generalizing v with
  | leaf a v =>
    cases hv
    obtain ⟨hsimple, hmark⟩ := hleaves [] _ _ _ rfl
    exact .simple hsimple hmark
  | @array t element axes parts hnode _ _ ih =>
    rw [Cell.value] at hv
    obtain ⟨vs, hvs, hv⟩ := except_bind_ok hv
    obtain ⟨lengths, -, hv⟩ := except_bind_ok hv
    refine nest_regular hv fun item hitem => ?_
    obtain ⟨i, hi⟩ := List.getElem?_of_mem hitem
    obtain ⟨c, hc, hcv⟩ := forall₂_getElem? (partValues_ok hvs) hi
    refine ih c (List.mem_of_getElem? hc) (fun path a u v hat => hleaves (i :: path) a u v ?_) hcv
    rw [Cell.at?, Cell.part?, hc]
    exact hat
  | @tuple t name fields size parts hnode hfields _ ih =>
    rw [Cell.value] at hv
    obtain ⟨values, hvalues, hv⟩ := except_bind_ok hv
    cases hv
    have hvalues := fieldValues_ok hvalues
    refine .record ?_ fun name v hmem => ?_
    · have hdistinct := hnames t
      rw [hnode] at hdistinct
      rw [map_eq_map (fun _ _ hv => hv.1) hvalues, hfields]
      exact hdistinct
    · obtain ⟨i, hi⟩ := List.getElem?_of_mem hmem
      obtain ⟨⟨name', c⟩, hc, -, hcv⟩ := forall₂_getElem? hvalues hi
      have hlength := congrArg List.length hfields
      rw [List.length_map, List.length_map] at hlength
      obtain ⟨field, hpair⟩ := exists_mem_zip hlength (List.mem_of_getElem? hc)
      refine ih _ hpair (fun path a u v hat => hleaves (i :: path) a u v ?_) hcv
      rw [Cell.at?, Cell.part?, hc]
      exact hat

end Values

section Defined

theorem undefinedInParts_nil {parts : List Cell} (h : undefinedInParts parts = []) :
    ∀ c ∈ parts, undefinedLeaves c = [] := by
  induction parts with
  | nil => simp
  | cons c rest ih =>
    rw [undefinedInParts, List.append_eq_nil_iff] at h
    simpa using ⟨h.1, ih h.2⟩

theorem undefinedInFields_nil {parts : List (String × Cell)} (h : undefinedInFields parts = []) :
    ∀ part ∈ parts, undefinedLeaves part.2 = [] := by
  induction parts with
  | nil => simp
  | cons part rest ih =>
    obtain ⟨name, c⟩ := part
    rw [undefinedInFields, List.append_eq_nil_iff] at h
    intro part hmem
    rcases List.mem_cons.1 hmem with rfl | hmem
    · exact h.1
    · exact ih h.2 part hmem

variable {c : Cell} {k : Root} {m : Memory}

theorem undefinedLeaves_nil {path : List Nat} {a : Address} {t : TypeId} {v : Value}
    (h : undefinedLeaves c = []) (hat : c.at? path = some (.leaf a t v)) : isUndefined v = false := by
  induction path generalizing c with
  | nil =>
    cases hat
    rw [undefinedLeaves] at h
    cases hv : isUndefined v with
    | false => rfl
    | true =>
      rw [hv] at h
      cases h
  | cons i path ih =>
    obtain ⟨part, hpart, hat⟩ := Option.bind_eq_some_iff.1 hat
    refine ih ?_ hat
    cases c with
    | leaf => cases hpart
    | array u parts => exact undefinedInParts_nil h part (List.mem_of_getElem? hpart)
    | tuple u parts =>
      obtain ⟨entry, hentry, rfl⟩ := Option.map_eq_some_iff.1 hpart
      exact undefinedInFields_nil h entry (List.mem_of_getElem? hentry)

def Defined (m : Memory) : Prop := ∀ e ∈ m.entries, undefinedLeaves e.2 = []

instance (m : Memory) : Decidable m.Defined := inferInstanceAs (Decidable (∀ e ∈ m.entries, _))

theorem mem_entries (h : m.rootCell? k = some c) :
    ∃ j, (j, c) ∈ m.entries ∧ j.same k = true := by
  rw [rootCell?_eq] at h
  obtain ⟨⟨j, c'⟩, hfind, rfl⟩ := Option.map_eq_some_iff.1 h
  exact ⟨j, List.mem_of_find?_eq_some hfind, by simpa using List.find?_some hfind⟩

theorem owns_of_rootCell? (h : m.rootCell? k = some c) : m.Owns c := by
  obtain ⟨j, hmem, -⟩ := mem_entries h
  exact owns_of_mem_entries hmem

end Defined

end Chalkboard.Memory

namespace Chalkboard.Types

theorem Fits.marked {g : Graph} {t : TypeId} {v : Value} (h : Fits g t v)
    (hv : Run.isUndefined v = false) : v.isSimple = true ∧ v.mark?.isSome = true := by
  have hreal (x : Float) (hx : Run.isUndefined (.real x) = false) : (Value.real x).mark?.isSome = true := by
    rw [Run.isUndefined, ← Bool.not_eq_true, Number.isNaN_iff] at hx
    simpa [Value.mark?, Numeric.units?, Option.isSome_iff_ne_none] using hx
  induction h with
  | boundless | real => exact ⟨rfl, hreal _ hv⟩
  | element _ _ ih | synonym _ _ ih => exact ih hv
  | _ => exact ⟨rfl, rfl⟩

end Chalkboard.Types

namespace Chalkboard.Run

open Memory (Root Cell)

theorem Lawful.regular {s : Types} {m : Memory} (h : Lawful s m) (hnamed : s.WellNamed)
    (hdefined : m.Defined) {k : Root} {c : Cell} (hc : m.rootCell? k = some c) {v : Value}
    (hv : c.value s.graph = .ok v) : v.Regular := by
  have howns := Memory.owns_of_rootCell? hc
  obtain ⟨j, hmem, -⟩ := Memory.mem_entries hc
  refine (h.built c howns).1.regular hnamed.distinct (fun path a t w hat => ?_) hv
  rcases h.typed a t w ⟨c, path, howns, hat⟩ with rfl | hfits
  · exact ⟨rfl, rfl⟩
  · exact hfits.marked (Memory.undefinedLeaves_nil (hdefined _ hmem) hat)

end Chalkboard.Run

namespace Chalkboard.Timeline

open Run (Held)

theorem stays_ok {now before : Held} : stays now before = .ok true ↔
    now.value.sameAs (fun _ _ => false) false before.value = .ok true ∧ now.origins = before.origins := by
  rw [stays, Held.sameAs]
  rcases now.value.sameAs _ false before.value with _ | _ | _ <;> simp [bind, Except.bind, pure, Except.pure]

theorem stays_iff {now before : Held} (hnow : now.value.Regular) (horigins : now.origins = before.origins) :
    stays now before = .ok true ↔
      now.value.equal before.value = .ok true ∧ now.value.constantFree = true := by
  rw [stays_ok, hnow.sameAs_iff false]
  exact and_iff_left horigins

end Chalkboard.Timeline
