import Mathlib.Data.List.Forall2
import Chalkboard.Proofs.Places
import Chalkboard.Timeline.Diff

/-! What the comparison of two memories tells: exactly the keys that came, the keys under which something
else stands, and the keys that are gone. No key is told twice. -/

namespace Chalkboard.Memory

open Chalkboard.Types (Graph)

namespace Root

theorem same_refl (k : Root) : k.same k = true := by
  cases k <;> simp [same, Address.same]

theorem same_symm {j k : Root} (h : j.same k = true) : k.same j = true := by
  cases j <;> cases k
  case stack.stack => exact beq_iff_eq.2 (beq_iff_eq.1 h).symm
  case heap.heap => exact Address.same_symm h
  all_goals cases h

theorem same_trans {i j k : Root} (h : i.same j = true) (h' : j.same k = true) : i.same k = true := by
  cases i <;> cases j <;> cases k
  case stack.stack.stack => exact beq_iff_eq.2 ((beq_iff_eq.1 h).trans (beq_iff_eq.1 h'))
  case heap.heap.heap => exact Address.same_trans h h'
  all_goals first | cases h | cases h'

theorem same_congr {j k : Root} (h : j.same k = true) (i : Root) : i.same j = i.same k := by
  rw [Bool.eq_iff_iff]
  exact ⟨fun hj => same_trans hj h, fun hk => same_trans hk (same_symm h)⟩

end Root

def rootCell? (m : Memory) : Root → Option Cell
  | .stack name => m.stackCell? name
  | .heap a => m.heapCell? a

/-- All cells with their keys, variables before blocks. -/
def entries (m : Memory) : List (Root × Cell) :=
  m.stack.map (fun (name, c) => (.stack name, c)) ++ m.heap.map fun (a, c) => (.heap a, c)

/-- All cells have a value. Only an array with rows of no length has none. -/
def Valued (g : Graph) (m : Memory) : Prop := ∀ e ∈ m.entries, ∃ v, e.2.value g = .ok v

/-- Entries under keys of which no two are the same. -/
def KeysApart {β : Type} (entries : List (Root × β)) : Prop :=
  (entries.map (·.1)).Pairwise fun j k => j.same k = false

section Entries

variable {m : Memory}

theorem stackCell?_find (m : Memory) (name : String) :
    m.stackCell? name = (m.stack.find? fun e => e.1 == name).map (·.2) := by
  rw [stackCell?]
  induction m.stack with
  | nil => rfl
  | cons e rest ih =>
    rw [List.lookup_cons, List.find?_cons, ih, BEq.comm]
    split <;> simp_all

theorem rootCell?_eq (m : Memory) (k : Root) :
    m.rootCell? k = (m.entries.find? fun e => e.1.same k).map (·.2) := by
  rw [entries, List.find?_append, List.find?_map, List.find?_map]
  cases k with
  | stack name =>
    have hheap : m.heap.find? ((fun e => e.1.same (.stack name)) ∘ fun (a, c) => (Root.heap a, c)) = none :=
      List.find?_eq_none.2 fun _ _ => Bool.false_ne_true
    rw [rootCell?, stackCell?_find, hheap, Option.map_none, Option.or_none, Option.map_map]
    rfl
  | heap a =>
    have hstack : m.stack.find? ((fun e => e.1.same (.heap a)) ∘ fun (n, c) => (Root.stack n, c)) = none :=
      List.find?_eq_none.2 fun _ _ => Bool.false_ne_true
    rw [rootCell?, heapCell?, hstack, Option.map_none, Option.none_or, Option.map_map]
    rfl

theorem rootCell?_congr {j k : Root} (hjk : j.same k = true) : m.rootCell? j = m.rootCell? k := by
  rw [rootCell?_eq, rootCell?_eq]
  congr 2
  funext e
  exact Root.same_congr hjk e.1

theorem entries_write (m : Memory) (here : Location) (v : Value) : (m.write here v).entries =
    m.entries.map fun (j, c) => (j, if j.same here.root then c.write v here.path else c) := by
  obtain ⟨root, path⟩ := here
  rw [entries, entries, List.map_append, List.map_map, List.map_map]
  cases root with
  | stack | heap =>
    rw [write]
    dsimp only
    rw [List.map_map]
    congr 1

theorem rootCell?_write (m : Memory) (k : Root) (here : Location) (v : Value) : (m.write here v).rootCell? k =
    (m.rootCell? k).map fun c => if here.root.same k then c.write v here.path else c := by
  rw [rootCell?_eq, rootCell?_eq, entries_write, List.find?_map, Option.map_map, Option.map_map]
  refine Option.map_congr fun e he => ?_
  obtain ⟨j, c⟩ := e
  have hsame : j.same k = true := by simpa using List.find?_some he
  have hroot : j.same here.root = here.root.same k := by
    rw [Bool.eq_iff_iff]
    exact ⟨fun h => Root.same_trans (Root.same_symm h) hsame,
      fun h => Root.same_trans hsame (Root.same_symm h)⟩
  rw [Function.comp_apply, Function.comp_apply]
  dsimp only
  rw [hroot]

theorem Distinct.keysApart (h : m.Distinct) : KeysApart m.entries := by
  rw [KeysApart, entries, List.map_append, List.pairwise_append, List.map_map, List.map_map,
    List.pairwise_map, List.pairwise_map]
  refine ⟨h.names.imp fun hne => beq_false_of_ne hne, h.keys, ?_⟩
  intro j hj k hk
  obtain ⟨_, -, rfl⟩ := List.mem_map.1 hj
  obtain ⟨_, -, rfl⟩ := List.mem_map.1 hk
  rfl

end Entries

end Chalkboard.Memory

namespace Chalkboard.Timeline

open Effects
open Chalkboard.Types (Graph)
open Memory (Root KeysApart Cell)
open Run (Held Situation)

section Values

variable {g : Graph} {s : Situation} {values others : List (Root × Held)} {j k : Root}

variable {v : Held} {α β : Type} {R : α → β → Prop} {f : α → Except Fault β} {xs : List α} {ys : List β}

theorem mapM_ok
    (h : xs.mapM f = .ok ys) : List.Forall₂ (fun x y => f x = .ok y) xs ys := by
  induction xs generalizing ys with
  | nil =>
    cases h
    exact .nil
  | cons x xs ih =>
    rw [List.mapM_cons] at h
    obtain ⟨y, hy, h⟩ := except_bind_ok h
    obtain ⟨rest, hrest, h⟩ := except_bind_ok h
    cases h
    exact .cons hy (ih hrest)

/-- What stands under a key is what its cell holds. -/
def Tells (g : Graph) (s : Situation) (e : Root × Cell) (v : Root × Held) : Prop :=
  v.1 = e.1 ∧ held g s e.2 = .ok v.2

theorem keyedValues_ok (h : keyedValues g s = .ok values) :
    List.Forall₂ (Tells g s) s.memory.entries values := by
  obtain ⟨stack, hstack, h⟩ := except_bind_ok h
  obtain ⟨heap, hheap, h⟩ := except_bind_ok h
  cases h
  refine List.rel_append ?_ ?_
  · rw [List.forall₂_map_left_iff]
    refine (mapM_ok hstack).imp fun e v hv => ?_
    obtain ⟨held, hheld, hv⟩ := except_bind_ok hv
    cases hv
    exact ⟨rfl, hheld⟩
  · rw [List.forall₂_map_left_iff]
    refine (mapM_ok hheap).imp fun e v hv => ?_
    obtain ⟨held, hheld, hv⟩ := except_bind_ok hv
    cases hv
    exact ⟨rfl, hheld⟩

theorem held_ok {c : Cell} {h : Held} (hh : held g s c = .ok h) :
    c.value g = .ok h.value ∧ h.origins = s.origins.inside c := by
  obtain ⟨v, hv, hh⟩ := except_bind_ok hh
  cases hh
  exact ⟨hv, rfl⟩

theorem forall₂_mem (h : List.Forall₂ R xs ys)
    {x : α} (hx : x ∈ xs) : ∃ y ∈ ys, R x y := by
  induction h with
  | nil => cases hx
  | cons hxy _ ih =>
    rcases List.mem_cons.1 hx with rfl | hx
    · exact ⟨_, List.mem_cons_self, hxy⟩
    · obtain ⟨y, hy, hR⟩ := ih hx
      exact ⟨y, List.mem_cons_of_mem _ hy, hR⟩

theorem keyedValues_valued (h : keyedValues g s = .ok values) : s.memory.Valued g := by
  intro e he
  obtain ⟨v, -, -, hv⟩ := forall₂_mem (keyedValues_ok h) he
  exact ⟨_, (held_ok hv).1⟩

theorem mapM_total (h : ∀ x ∈ xs, ∃ y, f x = .ok y) :
    ∃ ys, xs.mapM f = .ok ys := by
  induction xs with
  | nil => exact ⟨[], rfl⟩
  | cons x xs ih =>
    obtain ⟨y, hy⟩ := h x List.mem_cons_self
    obtain ⟨ys, hys⟩ := ih fun x hx => h x (List.mem_cons_of_mem _ hx)
    exact ⟨y :: ys, by rw [List.mapM_cons, hy, except_ok_bind, hys]; rfl⟩

theorem keyedValues_of_valued (h : s.memory.Valued g) : ∃ values, keyedValues g s = .ok values := by
  have hentry {k : Root} {c : Cell} (he : (k, c) ∈ s.memory.entries) (k' : Root) :
      ∃ y, (do return (k', ← held g s c) : Except Fault (Root × Held)) = .ok y := by
    obtain ⟨v, hv⟩ := h _ he
    exact ⟨(k', ⟨v, s.origins.inside c⟩), by rw [held, hv]; rfl⟩
  obtain ⟨stack, hstack⟩ :
      ∃ ys, s.memory.stack.mapM (fun (name, c) => do return (Root.stack name, ← held g s c)) = .ok ys :=
    mapM_total fun e he => hentry (List.mem_append_left _ (List.mem_map_of_mem he)) _
  obtain ⟨heap, hheap⟩ :
      ∃ ys, s.memory.heap.mapM (fun (a, c) => do return (Root.heap a, ← held g s c)) = .ok ys :=
    mapM_total fun e he => hentry (List.mem_append_right _ (List.mem_map_of_mem he)) _
  exact ⟨stack ++ heap, by rw [keyedValues, hstack, except_ok_bind, hheap]; rfl⟩

theorem find?_tells {es : List (Root × Cell)} (h : List.Forall₂ (Tells g s) es values) (k : Root) :
    Option.Rel (Tells g s) (es.find? fun e => e.1.same k) (values.find? fun v => v.1.same k) := by
  induction h with
  | nil => exact .none
  | @cons e v es vs hev _ ih =>
    rw [List.find?_cons, List.find?_cons, hev.1]
    cases e.1.same k with
    | true => exact .some hev
    | false => exact ih

theorem valueAt?_cases (h : keyedValues g s = .ok values) (k : Root) :
    s.memory.rootCell? k = none ∧ valueAt? values k = none ∨
      ∃ c v, s.memory.rootCell? k = some c ∧ held g s c = .ok v ∧ valueAt? values k = some v := by
  have hrel := find?_tells (keyedValues_ok h) k
  rw [Memory.rootCell?_eq, valueAt?]
  generalize s.memory.entries.find? _ = e at hrel ⊢
  generalize values.find? _ = v at hrel ⊢
  cases hrel with
  | none => exact .inl ⟨rfl, rfl⟩
  | some hev => exact .inr ⟨_, _, rfl, hev.2, rfl⟩

theorem map_eq_map {γ : Type} {f : α → γ} {f' : β → γ}
    (hR : ∀ a b, R a b → f' b = f a) {as : List α} {bs : List β} (h : List.Forall₂ R as bs) :
    bs.map f' = as.map f := by
  induction h with
  | nil => rfl
  | cons hab _ ih => rw [List.map_cons, List.map_cons, hR _ _ hab, ih]

theorem keyed_values (hdistinct : s.memory.Distinct) (h : keyedValues g s = .ok values) :
    KeysApart values := by
  rw [KeysApart, map_eq_map (fun _ _ hev => hev.1) (keyedValues_ok h)]
  exact hdistinct.keysApart

theorem valueAt?_cons (j k : Root) (v : Held) (rest : List (Root × Held)) :
    valueAt? ((j, v) :: rest) k = if j.same k then some v else valueAt? rest k := by
  rw [valueAt?, List.find?_cons]
  cases hjk : j.same k <;> simp [hjk, valueAt?]

theorem valueAt?_congr (hjk : j.same k = true) : valueAt? values j = valueAt? values k := by
  rw [valueAt?, valueAt?]
  congr 2
  funext e
  exact Root.same_congr hjk e.1

theorem mem_of_valueAt? (h : valueAt? values k = some v) :
    ∃ j, (j, v) ∈ values ∧ j.same k = true := by
  obtain ⟨⟨j, v'⟩, hfind, rfl⟩ := Option.map_eq_some_iff.1 h
  exact ⟨j, List.mem_of_find?_eq_some hfind, by simpa using List.find?_some hfind⟩

theorem valueAt?_of_mem (hkeyed : KeysApart values) (h : (j, v) ∈ values)
    (hjk : j.same k = true) : valueAt? values k = some v := by
  induction values with
  | nil => cases h
  | cons e rest ih =>
    obtain ⟨i, w⟩ := e
    rw [KeysApart, List.map_cons, List.pairwise_cons] at hkeyed
    rw [valueAt?_cons]
    rcases List.mem_cons.1 h with heq | h
    · cases heq
      exact if_pos hjk
    · have hij : i.same k = false := by
        rw [← Root.same_congr hjk]
        exact hkeyed.1 j (List.mem_map_of_mem h)
      rw [hij]
      exact ih hkeyed.2 h

theorem isSome_valueAt? (h : j ∈ values.map (·.1)) (hjk : j.same k = true) :
    (valueAt? values k).isSome = true := by
  obtain ⟨e, he, rfl⟩ := List.mem_map.1 h
  rw [valueAt?, Option.isSome_map, List.find?_isSome]
  exact ⟨e, he, hjk⟩

/-- Whether a key is among those that are told. -/
def among (k : Root) (told : List Root) : Bool := told.any fun j => j.same k

theorem among_iff {told : List Root} : among k told = true ↔ ∃ j ∈ told, j.same k = true := by
  rw [among, List.any_eq_true]

theorem mem_absentFrom : j ∈ absentFrom others values ↔ j ∈ values.map (·.1) ∧ valueAt? others j = none := by
  simp only [absentFrom, List.mem_map, List.mem_filter, Option.isNone_iff_eq_none]
  constructor
  · rintro ⟨e, ⟨he, hnone⟩, rfl⟩
    exact ⟨⟨e, he, rfl⟩, hnone⟩
  · rintro ⟨⟨e, he, rfl⟩, hnone⟩
    exact ⟨e, ⟨he, hnone⟩, rfl⟩

theorem absentFrom_sublist : (absentFrom others values).Sublist (values.map (·.1)) :=
  List.filter_sublist.map _

theorem among_absentFrom :
    among k (absentFrom others values) = true ↔ (valueAt? values k).isSome ∧ valueAt? others k = none := by
  rw [among_iff]
  constructor
  · rintro ⟨j, hj, hjk⟩
    obtain ⟨hmem, hnone⟩ := mem_absentFrom.1 hj
    exact ⟨isSome_valueAt? hmem hjk, valueAt?_congr hjk ▸ hnone⟩
  · rintro ⟨hsome, hnone⟩
    obtain ⟨v, hv⟩ := Option.isSome_iff_exists.1 hsome
    obtain ⟨j, hmem, hjk⟩ := mem_of_valueAt? hv
    exact ⟨j, mem_absentFrom.2 ⟨List.mem_map_of_mem hmem, valueAt?_congr hjk ▸ hnone⟩, hjk⟩

section Changed

variable {before : List (Root × Held)} {changed : List Root}

theorem changedFrom_cons {v : Held} {rest : List (Root × Held)}
    (h : changedFrom before ((k, v) :: rest) = .ok changed) :
    ∃ stayed others, (valueAt? before k).elim (.ok true) (stays v) = .ok stayed ∧
      changedFrom before rest = .ok others ∧ changed = if stayed then others else k :: others := by
  rw [changedFrom] at h
  rcases hstayed : (valueAt? before k).elim (.ok true) (stays v) with e | stayed
  · rw [hstayed] at h
    cases h
  · rw [hstayed] at h
    rcases hothers : changedFrom before rest with e | others
    · rw [hothers] at h
      cases h
    · rw [hothers] at h
      cases h
      exact ⟨stayed, others, hstayed, rfl, rfl⟩

theorem changedFrom_sublist (h : changedFrom before values = .ok changed) :
    changed.Sublist (values.map (·.1)) := by
  induction values generalizing changed with
  | nil =>
    cases h
    exact .slnil
  | cons e rest ih =>
    obtain ⟨stayed, others, -, hothers, rfl⟩ := changedFrom_cons h
    cases stayed with
    | true => exact (ih hothers).cons _
    | false => exact (ih hothers).cons_cons _

theorem mem_changedFrom (h : changedFrom before values = .ok changed) :
    j ∈ changed ↔ ∃ v b, (j, v) ∈ values ∧ valueAt? before j = some b ∧ stays v b ≠ .ok true := by
  induction values generalizing changed with
  | nil =>
    cases h
    simp
  | cons e rest ih =>
    obtain ⟨k, v⟩ := e
    obtain ⟨stayed, others, hstayed, hothers, rfl⟩ := changedFrom_cons h
    have hhead : stayed = false ↔ ∃ b, valueAt? before k = some b ∧ stays v b ≠ .ok true := by
      rcases hb : valueAt? before k with _ | b
      · rw [hb] at hstayed
        cases hstayed
        simp
      · rw [hb] at hstayed
        have hstayed : stays v b = .ok stayed := hstayed
        simp [hstayed]
    have hsplit : j ∈ (if stayed then others else k :: others) ↔ j = k ∧ stayed = false ∨ j ∈ others := by
      cases stayed <;> simp
    rw [hsplit, hhead, ih hothers]
    simp only [List.mem_cons, Prod.mk.injEq]
    constructor
    · rintro (⟨rfl, b, hb, hstays⟩ | ⟨w, b, hmem, hb, hstays⟩)
      · exact ⟨v, b, .inl ⟨rfl, rfl⟩, hb, hstays⟩
      · exact ⟨w, b, .inr hmem, hb, hstays⟩
    · rintro ⟨w, b, ⟨rfl, rfl⟩ | hmem, hb, hstays⟩
      · exact .inl ⟨rfl, b, hb, hstays⟩
      · exact .inr ⟨w, b, hmem, hb, hstays⟩

theorem among_changedFrom (hkeyed : KeysApart values) (h : changedFrom before values = .ok changed) :
    among k changed = true ↔
      ∃ v b, valueAt? values k = some v ∧ valueAt? before k = some b ∧ stays v b ≠ .ok true := by
  rw [among_iff]
  constructor
  · rintro ⟨j, hj, hjk⟩
    obtain ⟨v, b, hmem, hb, hstays⟩ := (mem_changedFrom h).1 hj
    exact ⟨v, b, valueAt?_of_mem hkeyed hmem hjk, valueAt?_congr hjk ▸ hb, hstays⟩
  · rintro ⟨v, b, hv, hb, hstays⟩
    obtain ⟨j, hmem, hjk⟩ := mem_of_valueAt? hv
    exact ⟨j, (mem_changedFrom h).2 ⟨v, b, hmem, (valueAt?_congr hjk).trans hb, hstays⟩, hjk⟩

end Changed

end Values

/-- What a comparison tells about two memories: each key at most once, the keys that came, the keys that
are gone, and the keys under which something else stands. -/
structure Compares (g : Graph) (before now : Situation) (d : Diff) : Prop where
  apart : (d.new ++ d.changed ++ d.deleted).Pairwise fun j k => j.same k = false
  new (k : Root) :
    among k d.new = true ↔ (now.memory.rootCell? k).isSome ∧ before.memory.rootCell? k = none
  deleted (k : Root) :
    among k d.deleted = true ↔ (before.memory.rootCell? k).isSome ∧ now.memory.rootCell? k = none
  changed (k : Root) : among k d.changed = true ↔ ∃ c c' v v', before.memory.rootCell? k = some c ∧
    now.memory.rootCell? k = some c' ∧ held g before c = .ok v ∧ held g now c' = .ok v' ∧
    stays v' v ≠ .ok true
  valued : now.memory.Valued g

section Diff

variable {g : Graph} {before now : Situation} {d : Diff}

theorem Compares.changed_iff {k : Root} {c c' : Cell} {v v' : Value} (h : Compares g before now d)
    (hc : before.memory.rootCell? k = some c) (hc' : now.memory.rootCell? k = some c')
    (hv : c.value g = .ok v) (hv' : c'.value g = .ok v') :
    among k d.changed = true ↔
      stays ⟨v', now.origins.inside c'⟩ ⟨v, before.origins.inside c⟩ ≠ .ok true := by
  have hheld : held g before c = .ok ⟨v, before.origins.inside c⟩ := by rw [held, hv]; rfl
  have hheld' : held g now c' = .ok ⟨v', now.origins.inside c'⟩ := by rw [held, hv']; rfl
  rw [h.changed]
  constructor
  · rintro ⟨c₁, c₁', x, x', hc₁, hc₁', hx, hx', hstays⟩
    cases hc.symm.trans hc₁
    cases hc'.symm.trans hc₁'
    cases hheld.symm.trans hx
    cases hheld'.symm.trans hx'
    exact hstays
  · exact fun hstays => ⟨c, c', _, _, hc, hc', hheld, hheld', hstays⟩

theorem diff_ok (h : diff g before now = .ok d) :
    ∃ old values changed, keyedValues g before = .ok old ∧ keyedValues g now = .ok values ∧
      changedFrom old values = .ok changed ∧ d = ⟨absentFrom old values, changed, absentFrom values old⟩ := by
  obtain ⟨old, hold, h⟩ := except_bind_ok h
  obtain ⟨values, hvalues, h⟩ := except_bind_ok h
  have h := liftMisuse_ok h
  rw [compare] at h
  rcases hchanged : changedFrom old values with e | changed
  · rw [hchanged] at h
    cases h
  · rw [hchanged] at h
    cases h
    exact ⟨old, values, changed, hold, hvalues, hchanged, rfl⟩

theorem apart_of_changedFrom {old values : List (Root × Held)} {changed : List Root} (hold : KeysApart old)
    (hvalues : KeysApart values) (h : changedFrom old values = .ok changed) :
    (absentFrom old values ++ changed ++ absentFrom values old).Pairwise fun j k => j.same k = false := by
  rw [List.pairwise_append, List.pairwise_append]
  refine ⟨⟨hvalues.sublist absentFrom_sublist, hvalues.sublist (changedFrom_sublist h), ?_⟩,
    hold.sublist absentFrom_sublist, ?_⟩
  · intro j hj k hk
    rw [← Bool.not_eq_true]
    intro hjk
    obtain ⟨v, b, -, hb, -⟩ := (mem_changedFrom h).1 hk
    rw [← valueAt?_congr hjk, (mem_absentFrom.1 hj).2] at hb
    cases hb
  · intro j hj k hk
    rw [← Bool.not_eq_true]
    intro hjk
    have hmem : j ∈ values.map (·.1) := (List.mem_append.1 hj).elim
      (fun hj => absentFrom_sublist.subset hj) fun hj => (changedFrom_sublist h).subset hj
    have hsome := isSome_valueAt? hmem hjk
    rw [(mem_absentFrom.1 hk).2] at hsome
    cases hsome

theorem diff_compares (hbefore : before.memory.Distinct) (hnow : now.memory.Distinct)
    (h : diff g before now = .ok d) : Compares g before now d := by
  obtain ⟨old, values, changed, hold, hvalues, hchanged, rfl⟩ := diff_ok h
  have hkeyed := keyed_values hnow hvalues
  have hkeyedOld := keyed_values hbefore hold
  refine ⟨apart_of_changedFrom hkeyedOld hkeyed hchanged, fun k => ?_, fun k => ?_, fun k => ?_,
    keyedValues_valued hvalues⟩
  iterate 2
    rw [among_absentFrom]
    rcases valueAt?_cases hold k with ⟨hc, hv⟩ | ⟨c, v, hc, -, hv⟩ <;>
    rcases valueAt?_cases hvalues k with ⟨hc', hv'⟩ | ⟨c', v', hc', -, hv'⟩ <;>
    simp [hc, hv, hc', hv']
  · rw [among_changedFrom hkeyed hchanged]
    rcases valueAt?_cases hold k with ⟨hc, hv⟩ | ⟨c, v, hc, hheld, hv⟩ <;>
    rcases valueAt?_cases hvalues k with ⟨hc', hv'⟩ | ⟨c', v', hc', hheld', hv'⟩ <;>
    simp [hc, hv, hc', hv']
    simp [hheld, hheld']

theorem changedFrom_nil (values : List (Root × Held)) : changedFrom [] values = .ok [] := by
  induction values with
  | nil => rfl
  | cons e rest ih =>
    rw [changedFrom, ih]
    rfl

theorem diff_nothing (h : now.memory.Valued g) : ∃ d, diff g {} now = .ok d := by
  obtain ⟨values, hvalues⟩ := keyedValues_of_valued h
  refine ⟨⟨absentFrom [] values, [], absentFrom values []⟩, ?_⟩
  rw [diff, hvalues, show keyedValues g {} = .ok [] from rfl]
  rw [except_ok_bind, except_ok_bind, compare, changedFrom_nil]
  rfl

end Diff

end Chalkboard.Timeline
