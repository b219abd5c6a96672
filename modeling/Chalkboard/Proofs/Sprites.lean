import Chalkboard.Picture.Board
import Chalkboard.Proofs.CellValues

/-! What sprites show. A box shows the text of a value, and if it is that of a pointer, where the value led
when it was drawn. A sprite with parts draws again only the parts that differ from what it shows already. -/

namespace Chalkboard.Picture

open Effects
open Chalkboard.Types (Graph TypeId)
open Memory (Address Cell)

/-- The value that a box is there for: the whole, an element or a field. -/
def valueFor (v : Value) : Option Key → Option Value
  | none => some v
  | some (.index i) =>
    match v with
    | .list items => items[i]?
    | .text s => s.toList[i]?.map fun c => .text c.toString
    | _ => none
  | some (.field name) =>
    match v with
    | .record fields => fields.lookup name
    | _ => none

/-- The boxes of a sprite, with the keys of its parts. -/
def Sprite.boxes : Sprite → List (Option Key × Box)
  | single b => [(none, b)]
  | group _ _ _ _ parts => parts.map fun p => (some p.key, p.box)

/-- The keys of the boxes, and which of the boxes have an arrow. -/
def Sprite.outline (s : Sprite) : List (Option Key × Bool) :=
  s.boxes.map fun (key, b) => (key, b.lead.isSome)

/-- A box that was drawn for a value, when these addresses had a sprite. -/
def Box.Shows (known : List Address) (v : Value) (b : Box) : Prop :=
  boxText v = .ok b.text ∧ ∀ lead, b.lead = some lead → leadOf known v = .ok lead

/-- Whether parts of this kind go by such keys. -/
def Grouping.has : Grouping → Key → Bool
  | .array, .index _ => true
  | .tuple, .field _ => true
  | _, _ => false

/-- Parts go by keys of the sprite's kind, each by its own. -/
def Sprite.Neat : Sprite → Prop
  | single _ => True
  | group kind _ _ _ parts => (parts.map (·.key)).Nodup ∧ ∀ p ∈ parts, kind.has p.key = true

/-- What holds of every box and the value it was drawn for. Only parts remember that value. -/
def Sprite.Faces (P : Option Key → Value → Box → Prop) : Sprite → Prop
  | single b => ∃ w, P none w b
  | group _ _ _ _ parts => ∀ p ∈ parts, P (some p.key) p.shown p.box

section Boxes

variable {s : Studio} {v : Value} {b b' : Box}

theorem Box.set_ok (h : b.set s v = (b', .ok ())) : b'.Shows s.known v ∧ b'.lead.isSome = b.lead.isSome := by
  rw [Box.set] at h
  rcases htext : boxText v with m | text
  · rw [htext] at h
    cases h
  · rw [htext] at h
    dsimp only at h
    rcases hlead : b.lead with _ | lead
    · rw [hlead] at h
      cases h
      exact ⟨⟨htext, fun lead h => by cases h⟩, rfl⟩
    · rw [hlead] at h
      dsimp only at h
      rcases hnew : leadOf s.known v with e | lead'
      · rw [hnew] at h
        cases h
      · rw [hnew] at h
        cases h
        exact ⟨⟨htext, fun lead h => by cases h; exact hnew⟩, rfl⟩

theorem Box.make_ok {inHeap pointer : Bool} {label : Except Misuse String} {subject : Palette.Subject}
    {p p' : Palette} (h : Box.make s inHeap pointer label subject v p = (.ok b, p')) :
    b.Shows s.known v ∧ b.lead.isSome = pointer := by
  obtain ⟨colour, p₁, -, h⟩ := bind_ok h
  obtain ⟨text, p₂, -, h⟩ := bind_ok h
  dsimp only at h
  rcases hset : Box.set s v ⟨text, colour, inHeap, "", false, if pointer then some .nowhere else none⟩ with
    ⟨b₁, _ | _⟩
  · rw [hset] at h
    cases h
  · rw [hset] at h
    obtain ⟨hshows, hlead⟩ := Box.set_ok hset
    cases h
    refine ⟨hshows, hlead.trans ?_⟩
    cases pointer <;> rfl

end Boxes

section Parts

variable {s : Studio} {anew : Bool}

/-- What becomes of a part that is given a value, or none. -/
def Updates (s : Studio) (anew : Bool) (u : Option Value) (p p' : Part) : Prop :=
  p'.key = p.key ∧ p'.box.lead.isSome = p.box.lead.isSome ∧
    ((p' = p ∧ ∀ w, u = some w → anew = false ∧ differs w p.shown = .ok false) ∨
      (u = some p'.shown ∧ p'.box.Shows s.known p'.shown ∧
        (anew = true ∨ differs p'.shown p.shown = .ok true)))

theorem updates_none (s : Studio) (anew : Bool) (p : Part) : Updates s anew none p p :=
  ⟨rfl, rfl, .inl ⟨rfl, fun _ h => by cases h⟩⟩

variable {p p' p₁ : Part} {parts parts' : List Part} {u : Option Value}

theorem Updates.onward (h : Updates s anew u p p₁)
    (h' : Updates s anew none p₁ p') : Updates s anew u p p' := by
  obtain ⟨-, -, ⟨rfl, -⟩ | ⟨hnone, -⟩⟩ := h'
  · exact h
  · cases hnone

theorem Updates.stay (h : Updates s anew none p p₁)
    (h' : Updates s anew u p₁ p') : Updates s anew u p p' := by
  obtain ⟨-, -, ⟨rfl, -⟩ | ⟨hnone, -⟩⟩ := h
  · exact h'
  · cases hnone

theorem forall₂_trans {α : Type} {R S T : α → α → Prop} (h : ∀ a b c, R a b → S b c → T a c)
    {as bs cs : List α} (hab : List.Forall₂ R as bs) (hbc : List.Forall₂ S bs cs) : List.Forall₂ T as cs := by
  induction hab generalizing cs with
  | nil => cases hbc; exact .nil
  | cons hr _ ih =>
    cases hbc with
    | cons hs hrest => exact .cons (h _ _ _ hr hs) (ih hrest)

theorem setPart_ok {key : Key} {v : Value} (hnodup : (parts.map (·.key)).Nodup)
    (h : setPart s anew key v parts = (parts', .ok ())) :
    List.Forall₂ (fun p p' => Updates s anew (if p.key = key then some v else none) p p') parts parts' := by
  induction parts generalizing parts' with
  | nil => cases h
  | cons p rest ih =>
    obtain ⟨hfirst, hrest⟩ := List.nodup_cons.1 hnodup
    rw [setPart] at h
    by_cases hkey : p.key = key
    · have hothers : List.Forall₂
          (fun p p' => Updates s anew (if p.key = key then some v else none) p p') rest rest := by
        refine List.forall₂_same.2 fun q hq => ?_
        rw [if_neg fun hsame => hfirst (List.mem_map.2 ⟨q, hq, hsame.trans hkey.symm⟩)]
        exact updates_none s anew q
      rw [if_pos (beq_iff_eq.2 hkey)] at h
      rcases hdiffers : (if anew then .ok true else differs v p.shown : Except Fault Bool) with e | _ | _
      · rw [hdiffers] at h
        cases h
      · rw [hdiffers] at h
        cases h
        refine .cons ?_ hothers
        rw [if_pos hkey]
        refine ⟨rfl, rfl, .inl ⟨rfl, fun w hw => ?_⟩⟩
        cases hw
        cases anew
        · exact ⟨rfl, hdiffers⟩
        · cases hdiffers
      · rw [hdiffers] at h
        dsimp only at h
        rcases hset : p.box.set s v with ⟨box, e | _⟩
        · rw [hset] at h
          cases h
        · rw [hset] at h
          cases h
          obtain ⟨hshows, hlead⟩ := Box.set_ok hset
          refine .cons ?_ hothers
          rw [if_pos hkey]
          refine ⟨hkey.symm, hlead, .inr ⟨rfl, hshows, ?_⟩⟩
          cases anew
          · exact .inr hdiffers
          · exact .inl rfl
    · rw [if_neg (by simpa using hkey)] at h
      rcases hset : setPart s anew key v rest with ⟨rest', e | _⟩
      · rw [hset] at h
        cases h
      · rw [hset] at h
        cases h
        refine .cons ?_ (ih hrest hset)
        rw [if_neg hkey]
        exact updates_none s anew p

theorem setParts_ok {values : List (Key × Value)}
    (hnodup : (parts.map (·.key)).Nodup) (hvalues : (values.map (·.1)).Nodup)
    (h : setParts s anew parts values = (parts', .ok ())) :
    List.Forall₂ (fun p p' => Updates s anew (values.lookup p.key) p p') parts parts' := by
  induction values generalizing parts with
  | nil =>
    cases h
    exact List.forall₂_same.2 fun p _ => updates_none s anew p
  | cons e rest ih =>
    obtain ⟨key, v⟩ := e
    obtain ⟨hfirst, hrest⟩ := List.nodup_cons.1 hvalues
    rw [setParts] at h
    rcases hset : setPart s anew key v parts with ⟨parts₁, e | _⟩
    · rw [hset] at h
      cases h
    · rw [hset] at h
      have hset := setPart_ok hnodup hset
      have hkeys : parts₁.map (·.key) = parts.map (·.key) := Timeline.map_eq_map (fun _ _ hp => hp.1) hset
      refine forall₂_trans (fun p p₁ p' hp hp' => ?_) hset (ih (hkeys ▸ hnodup) hrest h)
      rw [hp.1] at hp'
      rw [List.lookup_cons]
      by_cases hkey : p.key = key
      · have hnone : rest.lookup p.key = none := by
          rw [hkey, List.lookup_eq_none_iff]
          exact fun e he => by simpa using fun heq => hfirst (List.mem_map.2 ⟨e, he, heq.symm⟩)
        rw [hnone] at hp'
        rw [if_pos hkey] at hp
        rw [beq_iff_eq.2 hkey]
        exact hp.onward hp'
      · rw [if_neg hkey] at hp
        rw [beq_false_of_ne hkey]
        exact hp.stay hp'

end Parts

section Sprites

variable {s : Studio} {anew : Bool} {v : Value}

/-- A value whose names are apart, if it has names. -/
def SingleNamed : Value → Prop
  | .record fields => (fields.map (·.1)).Nodup
  | _ => True

theorem nodup_index {α : Type} (f : α → Value) (items : List α) :
    ((items.zipIdx.map fun (a, i) => (Key.index i, f a)).map (·.1)).Nodup := by
  have hkeys : (items.zipIdx.map fun (a, i) => (Key.index i, f a)).map (·.1) =
      (items.zipIdx.map Prod.snd).map Key.index := by
    rw [List.map_map, List.map_map]
    rfl
  rw [hkeys, List.zipIdx_map_snd]
  exact List.Nodup.map (fun _ _ h => Key.index.inj h) List.nodup_range'

theorem lookup_index {α : Type} (f : α → Value) (items : List α) (n i : Nat) :
    ((items.zipIdx n).map fun (a, i) => (Key.index i, f a)).lookup (.index (n + i)) = items[i]?.map f := by
  induction items generalizing n i with
  | nil => rfl
  | cons a rest ih =>
    rw [List.zipIdx_cons, List.map_cons, List.lookup_cons]
    cases i with
    | zero => simp
    | succ i =>
      have hne : (Key.index (n + (i + 1)) == Key.index n) = false := by simp
      rw [hne, ← Nat.add_assoc, Nat.add_right_comm]
      exact ih (n + 1) i

theorem lookup_field (name : String) (fields : List (String × Value)) :
    (fields.map fun (name, v) => (Key.field name, v)).lookup (.field name) = fields.lookup name := by
  induction fields with
  | nil => rfl
  | cons field rest ih =>
    have hbeq : (Key.field name == Key.field field.1) = (name == field.1) := by
      rw [Bool.eq_iff_iff, beq_iff_eq, beq_iff_eq, Key.field.injEq]
    rw [List.map_cons, List.lookup_cons, List.lookup_cons, ih, hbeq]

theorem partValues_ok {kind : Grouping} {values : List (Key × Value)} (hv : SingleNamed v)
    (h : partValues kind v = .ok values) : (values.map (·.1)).Nodup ∧
      ∀ key u, kind.has key = true → valueFor v (some key) = some u → values.lookup key = some u := by
  cases kind with
  | array =>
    cases v with
    | list items =>
      cases h
      refine ⟨nodup_index id items, fun key u hkey hu => ?_⟩
      cases key with
      | field => cases hkey
      | index i =>
        have hlookup := lookup_index id items 0 i
        rw [Nat.zero_add, Option.map_id] at hlookup
        exact hlookup.trans hu
    | text t =>
      cases h
      refine ⟨nodup_index (fun c : Char => .text c.toString) t.toList, fun key u hkey hu => ?_⟩
      cases key with
      | field => cases hkey
      | index i =>
        have hlookup := lookup_index (fun c : Char => .text c.toString) t.toList 0 i
        rw [Nat.zero_add] at hlookup
        exact hlookup.trans hu
    | record fields =>
      cases h
      refine ⟨nodup_index (fun field : String × Value => .text field.1) fields, fun key u hkey hu => ?_⟩
      cases key with
      | field => cases hkey
      | index i => cases hu
    | _ => cases h
  | tuple =>
    cases v with
    | record fields =>
      cases h
      refine ⟨?_, fun key u hkey hu => ?_⟩
      · rw [List.map_map]
        exact List.pairwise_map.2 ((List.pairwise_map.1 hv).imp fun hne h => hne (Key.field.inj h))
      · cases key with
        | index => cases hkey
        | field name =>
          exact (lookup_field name fields).trans hu
    | _ => cases h

/-- Setting a sprite: what holds of every box afterwards, from what held before. A box is drawn again for
its value, or it stays because the value does not differ from the one it was drawn for. A part is drawn again
only if it differs, or if all are. -/
theorem Sprite.set_ok {sprite sprite' : Sprite} (hneat : sprite.Neat) (hv : SingleNamed v)
    (h : sprite.set s anew v = (sprite', .ok ())) :
    sprite'.Neat ∧ sprite'.outline = sprite.outline ∧
      ∀ P P' : Option Key → Value → Box → Prop, sprite.Faces P →
        (∀ key u b w b₀, (∀ u', valueFor v key = some u' → u' = u) → b.Shows s.known u → P key w b₀ →
          (key = none ∨ anew = true ∨ differs u w = .ok true) → P' key u b) →
        (∀ key w b, (∀ u, valueFor v key = some u → anew = false ∧ differs u w = .ok false) →
          P key w b → P' key w b) → sprite'.Faces P' := by
  cases sprite with
  | single b =>
    rw [Sprite.set] at h
    rcases hset : b.set s v with ⟨b', e | _⟩
    · rw [hset] at h
      cases h
    · rw [hset] at h
      cases h
      obtain ⟨hshows, hlead⟩ := Box.set_ok hset
      refine ⟨trivial, by simp [Sprite.outline, Sprite.boxes, hlead], fun P P' hfaces hdraw _ => ⟨v, ?_⟩⟩
      obtain ⟨w, hw⟩ := hfaces
      exact hdraw none v b' w b (fun u' hu' => (Option.some.inj hu').symm) hshows hw (.inl rfl)
  | group kind label colour inHeap parts =>
    rw [Sprite.set] at h
    rcases hvalues : partValues kind v with e | values
    · rw [hvalues] at h
      cases h
    rw [hvalues] at h
    dsimp only at h
    rcases hset : setParts s anew parts values with ⟨parts', e | _⟩
    · rw [hset] at h
      cases h
    rw [hset] at h
    cases h
    obtain ⟨hnodup, hfor⟩ := partValues_ok hv hvalues
    have hupdates := setParts_ok hneat.1 hnodup hset
    have hkeys : parts'.map (·.key) = parts.map (·.key) :=
      Timeline.map_eq_map (fun _ _ hp => hp.1) hupdates
    refine ⟨⟨hkeys ▸ hneat.1, ?_⟩, ?_, fun P P' hfaces hdraw hkeep p' hp' => ?_⟩
    · have hhas : ∀ key ∈ parts.map (·.key), kind.has key = true := by simpa using hneat.2
      rw [← hkeys] at hhas
      simpa using hhas
    · simp only [Sprite.outline, Sprite.boxes, List.map_map]
      exact Timeline.map_eq_map (fun p p' hp => by simp [hp.1, hp.2.1]) hupdates
    · obtain ⟨i, hi⟩ := List.getElem?_of_mem hp'
      obtain ⟨p, hp, hkey, -, hstay | ⟨hdrawn, hshows, hreason⟩⟩ := Memory.forall₂_getElem? hupdates hi
      · obtain ⟨rfl, hsame⟩ := hstay
        refine hkeep _ _ _ (fun u hu => hsame u ?_) (hfaces _ (List.mem_of_getElem? hp))
        exact hfor _ u (hneat.2 _ (List.mem_of_getElem? hp)) hu
      · have hold := hfaces p (List.mem_of_getElem? hp)
        rw [← hkey] at hold
        refine hdraw _ _ _ _ _ (fun u hu => ?_) hshows hold (.inr hreason)
        rw [hkey] at hu
        have hlookup := hfor _ u (hneat.2 _ (List.mem_of_getElem? hp)) hu
        exact Option.some.inj (hlookup.symm.trans hdrawn)

theorem mapM_work_ok {σ α β : Type} {f : α → Work σ β} {xs : List α} {ys : List β} {m m' : σ}
    (h : xs.mapM f m = (.ok ys, m')) : List.Forall₂ (fun x y => ∃ m m', f x m = (.ok y, m')) xs ys := by
  induction xs generalizing ys m with
  | nil =>
    cases h
    exact .nil
  | cons x rest ih =>
    rw [List.mapM_cons] at h
    obtain ⟨y, m₁, hy, h⟩ := bind_ok h
    obtain ⟨zs, m₂, hzs, h⟩ := bind_ok h
    cases h
    exact .cons ⟨m, m₁, hy⟩ (ih hzs)

end Sprites

end Chalkboard.Picture

namespace Chalkboard.Types

def Graph.standsForPointer (g : Graph) (t : TypeId) : Bool :=
  match g.closure t with
  | .ok u => g.isPointer u
  | .error _ => false

end Chalkboard.Types

namespace Chalkboard.Picture

open Effects
open Chalkboard.Types (Graph TypeId)

section Making

variable {s : Studio} {inHeap : Bool} {label : String} {t : TypeId} {v : Value} {p p' : Palette}
  {sprite : Sprite}

/-- What holds of every box of a sprite that was just made. -/
def Fresh (s : Studio) (v : Value) (sprite : Sprite) : Prop :=
  ∀ P : Option Key → Value → Box → Prop,
    (∀ key u b, (∀ u', valueFor v key = some u' → u' = u) → b.Shows s.known u → P key u b) → sprite.Faces P

theorem makeGroup_ok {kind : Grouping} {keys : List (Key × TypeId)} (hnodup : (keys.map (·.1)).Nodup)
    (hkeys : ∀ key ∈ keys.map (·.1), kind.has key = true) (hv : SingleNamed v)
    (h : Sprite.makeGroup s inHeap kind label t v keys p = (.ok sprite, p')) :
    sprite.Neat ∧ sprite.outline = keys.map (fun (key, t) => (some key, s.graph.standsForPointer t)) ∧
      Fresh s v sprite ∧ ∃ values, partValues kind v = .ok values := by
  obtain ⟨colour, p₁, -, h⟩ := bind_ok h
  obtain ⟨parts, p₂, hparts, h⟩ := bind_ok h
  obtain ⟨values, hvalues, h⟩ := lift_bind_ok h
  dsimp only at h
  rcases hset : setParts s true parts values with ⟨parts', e | _⟩
  · rw [hset] at h
    cases h
  rw [hset] at h
  cases h
  have hmade : List.Forall₂ (fun (e : Key × TypeId) part => part.key = e.1 ∧ part.shown = placeholder ∧
      part.box.Shows s.known placeholder ∧ part.box.lead.isSome = s.graph.standsForPointer e.2) keys parts := by
    refine (mapM_work_ok hparts).imp fun e part hpart => ?_
    obtain ⟨q, q', hpart⟩ := hpart
    obtain ⟨u, q₁, hu, hpart⟩ := bind_ok hpart
    rw [lift_apply, Prod.mk.injEq] at hu
    obtain ⟨box, q₂, hbox, hpart⟩ := bind_ok hpart
    cases hpart
    obtain ⟨hshows, hlead⟩ := Box.make_ok hbox
    refine ⟨rfl, rfl, hshows, hlead.trans ?_⟩
    rw [Graph.standsForPointer, hu.1]
  have hsame : parts.map (·.key) = keys.map (·.1) := Timeline.map_eq_map (fun _ _ hp => hp.1) hmade
  have hneat : (Sprite.group kind label colour inHeap parts).Neat :=
    ⟨hsame ▸ hnodup, fun part hpart => hkeys _ (hsame ▸ List.mem_map_of_mem hpart)⟩
  have hwhole : (Sprite.group kind label colour inHeap parts).set s true v =
      (.group kind label colour inHeap parts', .ok ()) := by
    rw [Sprite.set, hvalues]
    dsimp only
    rw [hset]
  obtain ⟨hneat', houtline, hfaces⟩ := Sprite.set_ok hneat hv hwhole
  refine ⟨hneat', houtline.trans ?_, fun P hdraw => ?_, values, hvalues⟩
  · simp only [Sprite.outline, Sprite.boxes, List.map_map]
    exact Timeline.map_eq_map (fun e part hp => by simp [hp.1, hp.2.2.2]) hmade
  · refine hfaces (fun _ w b => w = placeholder ∧ b.Shows s.known placeholder) P (fun part hpart => ?_)
      (fun key u b _ _ hu hb _ _ => hdraw key u b hu hb) ?_
    · obtain ⟨i, hi⟩ := List.getElem?_of_mem hpart
      obtain ⟨e, -, hp⟩ := Memory.forall₂_getElem? hmade hi
      exact ⟨hp.2.1, hp.2.2.1⟩
    · rintro key _ b hstay ⟨rfl, hshows⟩
      refine hdraw key placeholder b (fun u hu => ?_) hshows
      cases (hstay u hu).1

/-- The boxes that a sprite of this type has, if it can be drawn for a value. -/
inductive Drawn (g : Graph) (t : TypeId) (v : Value) : List (Option Key × Bool) → Prop
  | array {u element : TypeId} {axis : Types.Axis} {n : Nat} (hu : g.closure t = .ok u)
      (hnode : g.node u = .array element [axis]) (hn : v.length? = some n) :
      Drawn g t v ((List.range n).map fun i => (some (.index i), g.standsForPointer element))
  | tuple {u : TypeId} {name : Option String} {fields : List (String × TypeId)} {size : Value}
      {values : List (String × Value)} (hu : g.closure t = .ok u) (hnode : g.node u = .tuple name fields size)
      (hv : v = .record values) :
      Drawn g t v (fields.map fun (name, t) => (some (.field name), g.standsForPointer t))
  | single {u : TypeId} (hu : g.closure t = .ok u) (harray : ∀ element axes, g.node u ≠ .array element axes)
      (htuple : ∀ name fields size, g.node u ≠ .tuple name fields size) :
      Drawn g t v [(none, g.standsForPointer t)]

theorem makeSingle_ok {pointer : Bool} {subject : Palette.Subject}
    (h : Sprite.makeSingle s inHeap pointer label subject v p = (.ok sprite, p')) :
    sprite.Neat ∧ sprite.outline = [(none, pointer)] ∧ Fresh s v sprite := by
  obtain ⟨b, p₁, hb, h⟩ := bind_ok h
  cases h
  obtain ⟨hshows, hlead⟩ := Box.make_ok hb
  refine ⟨trivial, by simp [Sprite.outline, Sprite.boxes, hlead], fun P hdraw => ⟨v, ?_⟩⟩
  exact hdraw none v b (fun u hu => (Option.some.inj hu).symm) hshows

theorem drawableArray_ok {g : Graph} {element : TypeId} (h : drawableArray g t v = .ok element) :
    ∃ axis, g.node t = .array element [axis] := by
  unfold drawableArray at h
  cases hnode : g.node t with
  | array element' axes =>
    rw [hnode] at h
    obtain ⟨problem, -, h⟩ := except_bind_ok h
    cases problem with
    | some kind => cases h
    | none =>
      obtain ⟨sizes, hsizes, h⟩ := except_bind_ok h
      have hlength := (Timeline.mapM_ok hsizes).length_eq
      obtain _ | ⟨size, _ | ⟨_, _⟩⟩ := sizes
      · obtain ⟨_, -, h⟩ := except_bind_ok h
        cases h
      · obtain ⟨axis, haxes⟩ := List.length_eq_one_iff.1 hlength
        obtain ⟨n, -, h⟩ := except_bind_ok h
        obtain ⟨fits, -, h⟩ := except_bind_ok h
        cases fits with
        | false =>
          obtain ⟨_, -, h⟩ := except_bind_ok h
          obtain ⟨_, -, h⟩ := except_bind_ok h
          cases h
        | true =>
          cases h
          exact ⟨axis, by rw [haxes]⟩
      · obtain ⟨_, -, h⟩ := except_bind_ok h
        cases h
  | _ =>
    rw [hnode] at h
    cases h

theorem drawableTuple_ok {g : Graph} {fields : List (String × TypeId)} (h : drawableTuple g t v = .ok fields) :
    ∃ name size, g.node t = .tuple name fields size := by
  unfold drawableTuple at h
  cases hnode : g.node t with
  | tuple name fields' size =>
    rw [hnode] at h
    obtain ⟨_, -, h⟩ := except_bind_ok h
    obtain ⟨n, -, h⟩ := except_bind_ok h
    split at h
    · obtain ⟨_, -, h⟩ := except_bind_ok h
      obtain ⟨_, -, h⟩ := except_bind_ok h
      cases h
    · cases h
      exact ⟨name, size, rfl⟩
  | _ =>
    rw [hnode] at h
    cases h

/-- A sprite as it comes out for a type and a value. -/
def WellMade (s : Studio) (t : TypeId) (v : Value) (sprite : Sprite) : Prop :=
  sprite.Neat ∧ Drawn s.graph t v sprite.outline ∧ Fresh s v sprite

theorem extent_ok {n : Nat} (h : extent v = .ok n) : v.length? = some n := by
  rw [extent] at h
  cases hlength : v.length? with
  | none =>
    rw [hlength] at h
    cases h
  | some k =>
    rw [hlength] at h
    cases h
    rfl

theorem wellMade_array {u element : TypeId} {axis : Types.Axis} {n : Nat} (hu : s.graph.closure t = .ok u)
    (hnode : s.graph.node u = .array element [axis]) (hv : SingleNamed v) (hn : v.length? = some n)
    {tag : TypeId} (h : Sprite.makeGroup s inHeap .array label tag v
      ((List.range n).map fun i => (.index i, element)) p = (.ok sprite, p')) : WellMade s t v sprite := by
  have hnodup : (((List.range n).map fun i => (Key.index i, element)).map (·.1)).Nodup := by
    rw [List.map_map]
    exact List.Nodup.map (fun _ _ h => Key.index.inj h) List.nodup_range
  obtain ⟨hneat, houtline, hfresh, -⟩ := makeGroup_ok hnodup (by simp [Grouping.has]) hv h
  rw [List.map_map] at houtline
  exact ⟨hneat, houtline ▸ .array hu hnode hn, hfresh⟩

theorem wellMade_tuple {u : TypeId} {name : Option String} {fields : List (String × TypeId)} {size : Value}
    (hu : s.graph.closure t = .ok u) (hnode : s.graph.node u = .tuple name fields size)
    (hdistinct : (s.graph.node u).Distinct) (hv : SingleNamed v) {tag : TypeId}
    (h : Sprite.makeGroup s inHeap .tuple label tag v
      (fields.map fun (name, t) => (.field name, t)) p = (.ok sprite, p')) : WellMade s t v sprite := by
  rw [hnode] at hdistinct
  have hnodup : ((fields.map fun (name, t) => (Key.field name, t)).map (·.1)).Nodup := by
    rw [List.map_map]
    exact List.pairwise_map.2 ((List.pairwise_map.1 hdistinct).imp fun hne h => hne (Key.field.inj h))
  have hkeys : ∀ key ∈ (fields.map fun (name, t) => (Key.field name, t)).map (·.1),
      Grouping.tuple.has key = true := by
    simp only [List.mem_map]
    rintro _ ⟨_, ⟨_, _, rfl⟩, rfl⟩
    rfl
  obtain ⟨hneat, houtline, hfresh, values, hvalues⟩ := makeGroup_ok hnodup hkeys hv h
  rw [List.map_map] at houtline
  cases v with
  | record => exact ⟨hneat, houtline ▸ .tuple hu hnode rfl, hfresh⟩
  | _ => cases hvalues

theorem wellMade_single {u : TypeId} {pointer : Bool} (hu : s.graph.closure t = .ok u)
    (hpointer : s.graph.isPointer u = pointer)
    (harray : ∀ element axes, s.graph.node u ≠ .array element axes)
    (htuple : ∀ name fields size, s.graph.node u ≠ .tuple name fields size)
    (h : Sprite.makeSingle s inHeap pointer label (.type u) v p = (.ok sprite, p')) : WellMade s t v sprite := by
  obtain ⟨hneat, houtline, hfresh⟩ := makeSingle_ok h
  have hstands : s.graph.standsForPointer t = pointer := by rw [Graph.standsForPointer, hu, ← hpointer]
  refine ⟨hneat, ?_, hfresh⟩
  rw [houtline, ← hstands]
  exact .single hu harray htuple

theorem Sprite.make_ok (hnames : ∀ t, (s.graph.node t).Distinct) (hv : SingleNamed v)
    (h : Sprite.make s inHeap label t v p = (.ok sprite, p')) : WellMade s t v sprite := by
  obtain ⟨u, hu, h⟩ := lift_bind_ok h
  cases hnode : s.graph.node u with
  | array element axes =>
    rw [hnode] at h
    obtain ⟨element', helement, h⟩ := lift_bind_ok h
    obtain ⟨axis, hnode⟩ := drawableArray_ok helement
    obtain ⟨n, hn, h⟩ := lift_bind_ok h
    exact wellMade_array hu hnode hv (extent_ok hn) h
  | tuple name fields size =>
    rw [hnode] at h
    obtain ⟨fields', hfields, h⟩ := lift_bind_ok h
    obtain ⟨name', size', hnode⟩ := drawableTuple_ok hfields
    exact wellMade_tuple hu hnode (hnames u) hv h
  | _ =>
    rw [hnode] at h
    refine wellMade_single hu ?_ (by simp [hnode]) (by simp [hnode]) h
    rw [Graph.isPointer, Graph.strip_self _ (Graph.meant_closure hu), hnode]

end Making

end Chalkboard.Picture

namespace Chalkboard.Memory

open Effects
open Chalkboard.Types (Graph TypeId)
open Picture (Key Drawn valueFor)

/-- The boxes that a cell needs, and which of them are those of pointers. -/
def Cell.outline (g : Graph) : Cell → List (Option Key × Bool)
  | leaf _ t _ => [(none, g.standsForPointer t)]
  | array _ parts => parts.zipIdx.map fun (c, i) => (some (.index i), g.standsForPointer c.type)
  | tuple _ parts => parts.map fun (name, c) => (some (.field name), g.standsForPointer c.type)

/-- A single cell whose type is another name for an array. -/
def Cell.undivided (g : Graph) : Cell → Bool
  | leaf _ t _ =>
    match g.closure t with
    | .ok u => match g.node u with
      | .array .. => true
      | _ => false
    | .error _ => false
  | _ => false

/-- The keys of the boxes that a cell with this value needs. An undivided array shows a text letter by
letter. -/
def Cell.boxKeys (g : Graph) (c : Cell) : Value → List (Option Key)
  | .list items => (List.range items.length).map fun i => some (.index i)
  | .record fields => fields.map fun (name, _) => some (.field name)
  | .text s => if c.undivided g then (List.range s.length).map fun i => some (.index i) else [none]
  | _ => [none]

section Outline

variable {g : Graph} {t : TypeId} {c c' : Cell} {v v' : Value}

variable {element : TypeId} {parts : List Cell}

theorem flat_value {axis : Types.Axis}
    (hnode : g.node t = .array element [axis]) (h : (Cell.array t parts).value g = .ok v) :
    ∃ values, v = .list values ∧ values.length = parts.length := by
  rw [Cell.value] at h
  obtain ⟨values, hvalues, h⟩ := except_bind_ok h
  obtain ⟨lengths, hlengths, h⟩ := except_bind_ok h
  rw [Cell.lengths, hnode] at hlengths
  obtain ⟨sizes, hsizes, hlengths⟩ := except_bind_ok hlengths
  have hone : lengths.length = 1 :=
    (Timeline.mapM_ok hlengths).length_eq.symm.trans (Timeline.mapM_ok hsizes).length_eq.symm
  obtain ⟨n, rfl⟩ := List.length_eq_one_iff.1 hone
  cases h
  exact ⟨values, rfl, (partValues_ok hvalues).length_eq.symm⟩

theorem outline_array (hparts : ∀ c ∈ parts, Shaped g element c) :
    (Cell.array t parts).outline g =
      (List.range parts.length).map fun i => (some (.index i), g.standsForPointer element) := by
  have htypes : (Cell.array t parts).outline g =
      parts.zipIdx.map fun e => (some (.index e.2), g.standsForPointer element) := by
    refine List.map_congr_left fun e he => ?_
    rw [← (hparts e.1 (List.fst_mem_of_mem_zipIdx he)).type_eq]
  rw [htypes, List.range_eq_range', ← List.zipIdx_map_snd, List.map_map]
  rfl

theorem outline_tuple {fields : List (String × TypeId)} {parts : List (String × Cell)}
    (hnames : parts.map (·.1) = fields.map (·.1))
    (hparts : ∀ pair ∈ parts.zip fields, Shaped g pair.2.2 pair.1.2) :
    (Cell.tuple t parts).outline g =
      fields.map fun (name, t) => (some (.field name), g.standsForPointer t) := by
  have hsame : List.Forall₂ (fun part field => part.1 = field.1) parts fields := by
    rw [← List.forall₂_eq_eq_eq, List.forall₂_map_left_iff, List.forall₂_map_right_iff] at hnames
    exact hnames
  have hfields : List.Forall₂ (fun field part => part.1 = field.1 ∧ part.2.type = field.2) fields parts := by
    refine List.Forall₂.flip (List.forall₂_iff_zip.2 ⟨hsame.length_eq, fun {part field} hpair => ⟨?_, ?_⟩⟩)
    · exact (List.forall₂_iff_zip.1 hsame).2 hpair
    · exact (hparts _ hpair).type_eq
  refine Timeline.map_eq_map (fun field part h => ?_) hfields
  obtain ⟨name, t⟩ := field
  obtain ⟨name', c⟩ := part
  obtain ⟨rfl, rfl⟩ : name' = name ∧ c.type = t := h
  rfl

theorem valueFor_boxKeys {key : Option Key} (h : key ∈ c.boxKeys g v) : (valueFor v key).isSome = true := by
  have hindex (n : Nat) (h : key ∈ (List.range n).map fun i => some (Key.index i)) :
      ∃ i < n, key = some (.index i) := by
    obtain ⟨i, hi, rfl⟩ := List.mem_map.1 h
    exact ⟨i, List.mem_range.1 hi, rfl⟩
  cases v with
  | list items =>
    obtain ⟨i, hi, rfl⟩ := hindex _ h
    simpa [valueFor] using hi
  | record fields =>
    obtain ⟨⟨name, w⟩, hmem, rfl⟩ := List.mem_map.1 h
    rw [valueFor, List.lookup_isSome_iff]
    exact ⟨(name, w), hmem, by simp⟩
  | text s =>
    rw [Cell.boxKeys] at h
    split at h
    · obtain ⟨i, hi, rfl⟩ := hindex _ h
      simpa [valueFor, ← String.length_toList] using hi
    · cases List.mem_singleton.1 h
      rfl
  | _ =>
    cases List.mem_singleton.1 h
    rfl

theorem tuple_keys {parts : List (String × Cell)} (h : (Cell.tuple t parts).value g = .ok v) :
    (Cell.tuple t parts).boxKeys g v = ((Cell.tuple t parts).outline g).map (·.1) := by
  rw [Cell.value] at h
  obtain ⟨values, hvalues, h⟩ := except_bind_ok h
  cases h
  rw [Cell.outline, List.map_map, Cell.boxKeys]
  exact Timeline.map_eq_map (fun part value h => by simp [h.1]) (fieldValues_ok hvalues)

/-- An outline does for a cell with this value; if the cell is undivided, this takes one that was made for a
value of the same length. -/
def Suits (g : Graph) (c : Cell) (v v' : Value) (outline : List (Option Key × Bool)) : Prop :=
  (c.undivided g = true ∨ outline = c.outline g) ∧
    (outline.map (·.1) = c.boxKeys g v' ∨ c.undivided g = true ∧ v.length? ≠ v'.length?)

theorem leaf_undivided {a : Address} {u : TypeId} {axes : List Types.Axis} (hu : g.closure t = .ok u)
    (hnode : g.node u = .array element axes) : Cell.undivided g (.leaf a t v) = true := by
  rw [Cell.undivided, hu]
  simp [hnode]

theorem leaf_divided {a : Address} {u : TypeId} (hu : g.closure t = .ok u)
    (harray : ∀ element axes, g.node u ≠ .array element axes) : Cell.undivided g (.leaf a t v) = false := by
  rw [Cell.undivided, hu]
  dsimp only
  split
  · rename_i hnode
    exact absurd hnode (harray _ _)
  · rfl

variable {outline : List (Option Key × Bool)}

theorem suits_leaf {a : Address} (hv : v.isSimple = true) (hv' : v'.isSimple = true) (h : Drawn g t v outline) :
    Suits g (.leaf a t v') v v' outline := by
  cases h with
  | @array u element axis n hu hnode hn =>
    refine ⟨.inl (leaf_undivided hu hnode), ?_⟩
    by_cases hlength : v.length? = v'.length?
    · rw [hlength] at hn
      left
      cases v' with
      | text s =>
        cases hn
        rw [Cell.boxKeys, leaf_undivided hu hnode, List.map_map]
        rfl
      | list | record => cases hv'
      | _ => cases hn
    · exact .inr ⟨leaf_undivided hu hnode, hlength⟩
  | tuple hu hnode hrecord =>
    cases hrecord
    cases hv
  | single hu harray =>
    refine ⟨.inr rfl, .inl ?_⟩
    cases v' with
    | list | record => cases hv'
    | text s =>
      rw [Cell.boxKeys, leaf_divided hu harray]
      rfl
    | _ => rfl

theorem suits_array {axes : List Types.Axis} (hnode : g.node t = .array element axes) (hc : Shaped g t c)
    (hv : c.value g = .ok v) (hc' : Shaped g t (.array t parts)) (hv' : (Cell.array t parts).value g = .ok v')
    (h : Drawn g t v outline) : Suits g (.array t parts) v v' outline := by
  have hclosure : g.closure t = .ok t := by rw [Graph.closure, hnode]
  cases h with
  | @array u element' axis n hu hnode' hn =>
    cases hu.symm.trans hclosure
    cases hnode.symm.trans hnode'
    obtain ⟨values', rfl, hlength'⟩ := flat_value hnode hv'
    cases hc with
    | leaf _ _ harray => exact absurd hnode (harray _ _)
    | tuple hnode₀ => cases hnode.symm.trans hnode₀
    | array hnode₀ hcount₀ =>
      cases hnode.symm.trans hnode₀
      obtain ⟨values, rfl, hlength⟩ := flat_value hnode hv
      cases hc' with
      | array hnode₁ hcount hparts =>
        cases hnode.symm.trans hnode₁
        have hn : n = parts.length := by
          have hsame := hcount₀.symm.trans hcount
          simp only [Except.ok.injEq, Value.int.injEq] at hsame
          have hvalues : values.length = n := Option.some.inj hn
          omega
        refine ⟨.inr ?_, .inl ?_⟩
        · rw [outline_array hparts, hn]
        · rw [List.map_map, Cell.boxKeys, hlength', hn]
          rfl
  | tuple hu hnode' =>
    cases hu.symm.trans hclosure
    cases hnode.symm.trans hnode'
  | single hu harray =>
    cases hu.symm.trans hclosure
    exact absurd hnode (harray _ _)

theorem suits_tuple {name : Option String} {fields : List (String × TypeId)} {size : Value}
    {parts : List (String × Cell)} (hnode : g.node t = .tuple name fields size)
    (hsame : (Cell.tuple t parts).outline g =
      fields.map fun (name, t) => (some (.field name), g.standsForPointer t))
    (hv' : (Cell.tuple t parts).value g = .ok v') (h : Drawn g t v outline) :
    Suits g (.tuple t parts) v v' outline := by
  have hclosure : g.closure t = .ok t := by rw [Graph.closure, hnode]
  cases h with
  | array hu hnode' =>
    cases hu.symm.trans hclosure
    cases hnode.symm.trans hnode'
  | tuple hu hnode' =>
    cases hu.symm.trans hclosure
    cases hnode.symm.trans hnode'
    refine ⟨.inr hsame.symm, .inl ?_⟩
    rw [tuple_keys hv', hsame]
  | single hu _ htuple =>
    cases hu.symm.trans hclosure
    exact absurd hnode (htuple _ _ _)

/-- A sprite that was made for one cell has the boxes that any other of that type needs. -/
theorem Shaped.drawn (hc : Shaped g t c) (hv : c.value g = .ok v) (hc' : Shaped g t c')
    (hv' : c'.value g = .ok v') (hsimple : ∀ a t w, c = .leaf a t w ∨ c' = .leaf a t w → w.isSimple = true)
    (h : Drawn g t v outline) : Suits g c' v v' outline := by
  cases hc' with
  | leaf a w harray htuple =>
    cases hv'
    cases hc with
    | array hnode => exact absurd hnode (harray _ _)
    | tuple hnode => exact absurd hnode (htuple _ _ _)
    | leaf a₀ w₀ =>
      cases hv
      exact suits_leaf (hsimple a₀ t v (.inl rfl)) (hsimple a t v' (.inr rfl)) h
  | array hnode hcount hparts => exact suits_array hnode hc hv (.array hnode hcount hparts) hv' h
  | tuple hnode hnames hparts => exact suits_tuple hnode (outline_tuple hnames hparts) hv' h

end Outline

end Chalkboard.Memory
