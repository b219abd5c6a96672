import Chalkboard.Proofs.Replay
import Chalkboard.Proofs.Shows

/-! The panel shows the memory. After every frame there is a sprite for every variable and every block, and
the texts in its boxes are those of values that compare equal to what stands there. A sprite keeps the boxes
that it was made with: where an array that is only another name for one gets a shorter text, or a block of
another type takes the place of one with the same key, some of them are left over. -/

namespace Chalkboard.Types

theorem Fits.simple {g : Graph} {t : TypeId} {v : Value} (h : Fits g t v) : v.isSimple = true := by
  induction h with
  | element _ _ ih | synonym _ _ ih => exact ih
  | _ => rfl

end Chalkboard.Types

namespace Chalkboard.Memory

theorem Valued.root {g : Types.Graph} {m : Memory} (h : m.Valued g) {k : Root} {c : Cell}
    (hc : m.rootCell? k = some c) : ∃ v, c.value g = .ok v := by
  obtain ⟨j, hmem, -⟩ := mem_entries hc
  exact h _ hmem

end Chalkboard.Memory

namespace Chalkboard.Run

open Memory (Root Cell Shaped)

section Lawful

variable {s : Types} {m : Memory} {k : Root} {c : Cell}

theorem Lawful.shaped (h : Lawful s m) (hc : m.rootCell? k = some c) : Shaped s.graph c.type c :=
  (h.built c (Memory.owns_of_rootCell? hc)).1

theorem Lawful.leaf_simple (h : Lawful s m) {a : Memory.Address} {t : Types.TypeId} {w : Value}
    (hc : m.rootCell? k = some (.leaf a t w)) : w.isSimple = true := by
  rcases h.typed a t w ⟨_, [], Memory.owns_of_rootCell? hc, rfl⟩ with rfl | hfits
  · rfl
  · exact hfits.simple

end Lawful

end Chalkboard.Run

namespace Chalkboard.Session

theorem Opens.filled {saved : Option Saved} {setting : Reading.Setting} {text : String} {p : Syntax.Program}
    {types : Types} (h : Opens saved setting text p types) : Run.FilledAll p.sentences := by
  obtain ⟨now, h⟩ := h
  obtain ⟨_, s, -, hread⟩ := Effects.bind_ok h
  exact (Reading.readProgram_past hread).1

end Chalkboard.Session

namespace Chalkboard.Picture

open Effects
open Chalkboard.Types (Graph TypeId)
open Memory (Root Cell Shaped)
open Run (Lawful)

section Values

variable {v w u : Value} {key : Option Key}

theorem valueFor_regular (h : v.Regular) (hu : valueFor v key = some u) : u.Regular := by
  rcases key with _ | i | name
  · cases hu
    exact h
  · cases h with
    | list hitems => exact hitems u (List.mem_of_getElem? hu)
    | record => cases hu
    | simple hv hmark =>
      cases v with
      | text s =>
        obtain ⟨c, -, rfl⟩ := Option.map_eq_some_iff.1 hu
        exact .simple rfl rfl
      | list | record => cases hv
      | _ => cases hu
  · cases h with
    | list => cases hu
    | record _ hfields => exact hfields name u (Types.mem_of_lookup hu)
    | simple hv =>
      cases v with
      | list | record => cases hv
      | _ => cases hu

theorem valueFor_equal (h : v.equal w = .ok true) (hu : valueFor v key = some u) :
    ∃ u', valueFor w key = some u' ∧ u.equal u' = .ok true := by
  rcases key with _ | i | name
  · cases hu
    exact ⟨w, rfl, h⟩
  · cases v with
    | list items =>
      obtain ⟨items', rfl, -, hitems⟩ := Value.equal_list.1 h
      obtain ⟨u', hu', hequal⟩ := Memory.forall₂_getElem? ((Value.equalItems_iff _ _).1 hitems).flip hu
      exact ⟨u', hu', hequal⟩
    | text s =>
      obtain ⟨-, hmark⟩ := (Value.equal_simple rfl w).1 h
      obtain rfl : w = .text s := by
        cases w <;> simp_all [Value.mark?]
      obtain ⟨c, -, rfl⟩ := Option.map_eq_some_iff.1 hu
      exact ⟨_, hu, (Value.equal_simple rfl _).2 ⟨rfl, rfl⟩⟩
    | _ => cases hu
  · cases v with
    | record fields =>
      obtain ⟨fields', rfl, -, hfields⟩ := Value.equal_record.1 h
      exact (Value.equalFields_iff _ _).1 hfields name u (Types.mem_of_lookup hu)
    | _ => cases hu

theorem equal_of_differs (h : differs u w = .ok false) : u.equal w = .ok true := by
  have hmap (h : liftMisuse ((u.equal w).map not) = .ok false) : u.equal w = .ok true := by
    have h := liftMisuse_ok h
    revert h
    rcases u.equal w with _ | _ | _ <;> simp [Except.map]
  unfold differs at h
  split at h
  · cases h
  · exact hmap h

theorem Sprite.Faces.imp {sprite : Sprite} {P P' : Option Key → Value → Box → Prop} (h : sprite.Faces P)
    (himp : ∀ key w b, P key w b → P' key w b) : sprite.Faces P' := by
  cases sprite with
  | single b =>
    obtain ⟨w, hw⟩ := h
    exact ⟨w, himp none w b hw⟩
  | group => exact fun p hp => himp _ _ _ (h p hp)

theorem Sprite.Faces.box {sprite : Sprite} {P : Option Key → Value → Box → Prop} (h : sprite.Faces P) {b : Box}
    (hb : (key, b) ∈ sprite.boxes) : ∃ w, P key w b := by
  cases sprite with
  | single b' =>
    obtain ⟨w, hw⟩ := h
    cases List.mem_singleton.1 hb
    exact ⟨w, hw⟩
  | group =>
    obtain ⟨p, hp, heq⟩ := List.mem_map.1 hb
    cases heq
    exact ⟨p.shown, h p hp⟩

end Values

/-- A cell that stood under a key at some time since the key came, where the last memory stands first. -/
inductive Stood (k : Root) : List Memory → Cell → Prop
  | now {m : Memory} {past : List Memory} {c : Cell} (hc : m.rootCell? k = some c) : Stood k (m :: past) c
  | before {m : Memory} {past : List Memory} {c c' : Cell} (hc' : m.rootCell? k = some c')
      (h : Stood k past c) : Stood k (m :: past) c

/-- A sprite with the boxes it was made with, for a cell that stood under its key. -/
def Framed (types : Types) (past : List Memory) (k : Root) (sprite : Sprite) : Prop :=
  sprite.Neat ∧ ∃ m c v, Lawful types m ∧ m.rootCell? k = some c ∧ Stood k past c ∧
    c.value types.graph = .ok v ∧ Drawn types.graph c.type v sprite.outline

/-- A sprite was made for a cell of another type, or for an undivided array with a text of another length. -/
def Outgrown (g : Graph) (past : List Memory) (k : Root) (c : Cell) (v : Value) : Prop :=
  ∃ c₀ v₀, Stood k past c₀ ∧ c₀.value g = .ok v₀ ∧
    (c₀.type ≠ c.type ∨ c.undivided g = true ∧ v₀.length? ≠ v.length?)

section Framed

variable {types : Types} {m : Memory} {past : List Memory} {k : Root} {c : Cell} {v : Value} {s : Studio}
  {sprite sprite' : Sprite}

theorem nest_list {lengths : List Nat} {items : List Value} (h : Cell.nest lengths items = .ok v) :
    ∃ rows, v = .list rows := by
  obtain _ | ⟨n, _ | ⟨k, rest⟩⟩ := lengths
  · cases h
  · cases h
    exact ⟨items, rfl⟩
  · rw [Cell.nest] at h
    dsimp only at h
    split at h
    · cases h
    · obtain ⟨rows, -, h⟩ := except_bind_ok h
      cases h
      exact ⟨rows, rfl⟩

theorem singleNamed_of_lawful (h : Lawful types m) (hnamed : types.WellNamed) (hc : m.rootCell? k = some c)
    (hv : c.value types.graph = .ok v) : SingleNamed v := by
  cases c with
  | leaf a t w =>
    cases hv
    have hsimple := h.leaf_simple hc
    cases v with
    | list | record => cases hsimple
    | _ => trivial
  | array t parts =>
    rw [Cell.value] at hv
    obtain ⟨items, -, hv⟩ := except_bind_ok hv
    obtain ⟨lengths, -, hv⟩ := except_bind_ok hv
    obtain ⟨rows, rfl⟩ := nest_list hv
    trivial
  | tuple t parts =>
    rw [Cell.value] at hv
    obtain ⟨fields, hfields, hv⟩ := except_bind_ok hv
    cases hv
    cases h.shaped hc with
    | tuple hnode hnames =>
      have hdistinct := hnamed.distinct (Cell.tuple t parts).type
      rw [hnode] at hdistinct
      rw [SingleNamed, Timeline.map_eq_map (fun _ _ hv => hv.1) (Memory.fieldValues_ok hfields), hnames]
      exact hdistinct

theorem Framed.made (h : Lawful types m) (hnamed : types.WellNamed) (hc : m.rootCell? k = some c)
    (hv : c.value types.graph = .ok v) (hs : s.graph = types.graph) {inHeap : Bool} {label : String}
    {p p' : Palette} (hmade : Sprite.make s inHeap label c.type v p = (.ok sprite, p')) :
    Framed types (m :: past) k sprite ∧ Fresh s v sprite := by
  have hnames : ∀ t, (s.graph.node t).Distinct := hs ▸ hnamed.distinct
  obtain ⟨hneat, hdrawn, hfresh⟩ := Sprite.make_ok hnames (singleNamed_of_lawful h hnamed hc hv) hmade
  exact ⟨⟨hneat, m, c, v, h, hc, .now hc, hv, hs ▸ hdrawn⟩, hfresh⟩

theorem Framed.kept (h : Framed types past k sprite) (hc : m.rootCell? k = some c) :
    Framed types (m :: past) k sprite := by
  obtain ⟨hneat, m₀, c₀, v₀, hlawful, hc₀, hstood, hv₀, hdrawn⟩ := h
  exact ⟨hneat, m₀, c₀, v₀, hlawful, hc₀, .before hc hstood, hv₀, hdrawn⟩

theorem Framed.redrawn (h : Framed types past k sprite) (hneat : sprite'.Neat)
    (houtline : sprite'.outline = sprite.outline) : Framed types past k sprite' := by
  obtain ⟨-, m₀, c₀, v₀, hlawful, hc₀, hstood, hv₀, hdrawn⟩ := h
  exact ⟨hneat, m₀, c₀, v₀, hlawful, hc₀, hstood, hv₀, houtline ▸ hdrawn⟩

theorem Framed.boxes (h : Framed types past k sprite) (hlawful : Lawful types m)
    (hc : m.rootCell? k = some c) (hv : c.value types.graph = .ok v) :
    (sprite.outline = c.outline types.graph ∨ c.undivided types.graph = true ∨
      ∃ c₀, Stood k past c₀ ∧ c₀.type ≠ c.type) ∧
      (sprite.boxes.map (·.1) = c.boxKeys types.graph v ∨ Outgrown types.graph past k c v) := by
  obtain ⟨-, m₀, c₀, v₀, hlawful₀, hc₀, hstood, hv₀, hdrawn⟩ := h
  by_cases htype : c₀.type = c.type
  · have hshaped := hlawful₀.shaped hc₀
    rw [htype] at hshaped hdrawn
    have hsimple (a : Memory.Address) (t : TypeId) (w : Value) (hleaf : c₀ = .leaf a t w ∨ c = .leaf a t w) :
        w.isSimple = true := by
      rcases hleaf with rfl | rfl
      · exact hlawful₀.leaf_simple hc₀
      · exact hlawful.leaf_simple hc
    obtain ⟨houtline, hkeys⟩ := hshaped.drawn hv₀ (hlawful.shaped hc) hv hsimple hdrawn
    have hmap : sprite.outline.map (·.1) = sprite.boxes.map (·.1) := by
      rw [Sprite.outline, List.map_map]
      rfl
    rw [hmap] at hkeys
    exact ⟨houtline.elim (fun hundivided => .inr (.inl hundivided)) .inl,
      hkeys.imp_right fun hlength => ⟨c₀, v₀, hstood, hv₀, .inr hlength⟩⟩
  · exact ⟨.inr (.inr ⟨c₀, hstood, htype⟩), .inr ⟨c₀, v₀, hstood, hv₀, .inl htype⟩⟩

end Framed


/-- What holds of the sprite under a key after some frames, where something holds of each of its boxes, with
the value now under the key and the value that the box was drawn for. -/
def Faced (types : Types) (P : List Memory → Root → Value → Option Key → Value → Box → Prop)
    (past : List Memory) (k : Root) (sprite : Sprite) : Prop :=
  Framed types past k sprite ∧ ∀ c v, (past.headD {}).rootCell? k = some c → c.value types.graph = .ok v →
    sprite.Faces (P past k v)

section Faced

open Timeline (Follows Frame)
open Board (Depicts Upheld keysOf)

variable {f : Run.Frame} {before : Run.Situation} {frame : Frame} {past : List Memory} {m : Memory} {k : Root}
  {c : Cell} {v : Value} {sprite sprite' : Sprite}
  {P : List Memory → Root → Value → Option Key → Value → Box → Prop}

theorem Faced.of_faces {types : Types} (hframed : Framed types (m :: past) k sprite)
    (hc : m.rootCell? k = some c) (hv : c.value types.graph = .ok v) (hfaces : sprite.Faces (P (m :: past) k v)) :
    Faced types P (m :: past) k sprite := by
  refine ⟨hframed, fun c' v' hc' hv' => ?_⟩
  cases hc.symm.trans hc'
  cases hv.symm.trans hv'
  exact hfaces

/-- What is asked of a step to keep something of all boxes: of those that are drawn, because the key is new or
because their value differs, and of those that are not, because their value or all under the key is the
same. -/
theorem Faced.upheld (hnamed : f.types.WellNamed) (hpast : past.headD {} = before.memory)
    (h : Follows f before frame)
    (hmade : ∀ k c v known key u b, before.memory.rootCell? k = none → frame.memory.rootCell? k = some c →
      c.value f.types.graph = .ok v → (∀ u', valueFor v key = some u' → u' = u) → b.Shows known u →
      P (frame.memory :: past) k v key u b)
    (hdrawn : ∀ k c₀ c v₀ v known key u b w b₀, Timeline.among k frame.diff.changed = true →
      before.memory.rootCell? k = some c₀ → c₀.value f.types.graph = .ok v₀ →
      frame.memory.rootCell? k = some c → c.value f.types.graph = .ok v →
      (∀ a, known.any (·.same a) = true ↔ keysOf before.memory (.heap a) ∨ keysOf frame.memory (.heap a)) →
      (∀ u', valueFor v key = some u' → u' = u) → b.Shows known u → P past k v₀ key w b₀ →
      (key = none ∨ differs u w = .ok true) → P (frame.memory :: past) k v key u b)
    (hstays : ∀ k c₀ c v₀ v key w b, before.memory.rootCell? k = some c₀ → c₀.value f.types.graph = .ok v₀ →
      frame.memory.rootCell? k = some c → c.value f.types.graph = .ok v → P past k v₀ key w b →
      (∀ u, valueFor v key = some u → differs u w = .ok false) → P (frame.memory :: past) k v key w b)
    (hkept : ∀ k c₀ c v₀ v key w b, Timeline.among k frame.diff.changed = false →
      before.memory.rootCell? k = some c₀ → c₀.value f.types.graph = .ok v₀ →
      frame.memory.rootCell? k = some c → c.value f.types.graph = .ok v → P past k v₀ key w b →
      P (frame.memory :: past) k v key w b) :
    Upheld f.types.graph before frame (Faced f.types P past) (Faced f.types P (frame.memory :: past)) := by
  refine ⟨h.compares, fun {k c v s _ _ _ _ sprite} hnew hc hv hs hsprite => ?_,
    fun {k c₀ c v old s sprite} hchanged hc₀ hc hv hold _ hknown hset => ?_,
    fun {k c₀ c sprite} hsame hc₀ hc hold => ?_⟩
  · obtain ⟨hframed, hfresh⟩ := Framed.made h.now hnamed hc hv hs hsprite
    exact .of_faces hframed hc hv (hfresh _ fun key u b hu hb => hmade k c v s.known key u b hnew hc hv hu hb)
  · obtain ⟨hframed, hfaces⟩ := hold
    obtain ⟨v₀, hv₀⟩ := h.valued.root hc₀
    obtain ⟨hneat, houtline, hnext⟩ :=
      Sprite.set_ok hframed.1 (singleNamed_of_lawful h.now hnamed hc hv) hset
    refine .of_faces ((hframed.redrawn hneat houtline).kept hc) hc hv
      (hnext _ _ (hfaces c₀ v₀ (hpast ▸ hc₀) hv₀) ?_ ?_)
    · intro key u b w b₀ hu hb hold hreason
      exact hdrawn k c₀ c v₀ v s.known key u b w b₀ hchanged hc₀ hv₀ hc hv hknown hu hb hold
        (hreason.imp_right fun hdiffers => hdiffers.resolve_left (by simp))
    · intro key w b hsame hold
      exact hstays k c₀ c v₀ v key w b hc₀ hv₀ hc hv hold fun u hu => (hsame u hu).2
  · obtain ⟨hframed, hfaces⟩ := hold
    obtain ⟨v₀, hv₀⟩ := h.valued.root hc₀
    obtain ⟨v, hv⟩ := h.compares.valued.root hc
    refine .of_faces (hframed.kept hc) hc hv ((hfaces c₀ v₀ (hpast ▸ hc₀) hv₀).imp fun key w b hold => ?_)
    exact hkept k c₀ c v₀ v key w b hsame hc₀ hv₀ hc hv hold

theorem Faced.start {t : Theme} {b b' : Board} (hnamed : f.types.WellNamed)
    (hlawful : Lawful f.types frame.memory)
    (hcompares : Timeline.Compares f.types.graph {} frame.situation frame.diff) (hempty : b.sprites = [])
    (hrun : Board.start f.types.graph t frame b = (.ok (), b'))
    (hdrawn : ∀ k c v known key u b, frame.memory.rootCell? k = some c → c.value f.types.graph = .ok v →
      (∀ a, known.any (·.same a) = true ↔ keysOf frame.memory (.heap a)) →
      (∀ u', valueFor v key = some u' → u' = u) → b.Shows known u → P [frame.memory] k v key u b)
    (hleft : ∀ k c v known key w b, frame.memory.rootCell? k = some c → c.value f.types.graph = .ok v →
      valueFor v key = none → b.Shows known w → P [frame.memory] k v key w b) :
    b'.Depicts (keysOf frame.memory) (Faced f.types P [frame.memory]) := by
  refine Depicts.start (G := Faced f.types (fun _ _ _ _ w b => ∃ known, b.Shows known w) [frame.memory])
    hempty hcompares ?_ ?_ hrun
  · intro k c v s inHeap label p p' sprite hc hv hs hmade
    obtain ⟨hframed, hfresh⟩ := Framed.made hlawful hnamed hc hv hs hmade
    exact .of_faces hframed hc hv (hfresh _ fun key u b _ hb => ⟨s.known, hb⟩)
  · intro k c v old s sprite hc hv hold hs hknown hset
    obtain ⟨hframed, hfaces⟩ := hold
    obtain ⟨hneat, houtline, hnext⟩ :=
      Sprite.set_ok hframed.1 (singleNamed_of_lawful hlawful hnamed hc hv) hset
    refine .of_faces (hframed.redrawn hneat houtline) hc hv (hnext _ _ (hfaces c v hc hv) ?_ ?_)
    · exact fun key u b _ _ hu hb _ _ => hdrawn k c v s.known key u b hc hv hknown hu hb
    · rintro key w b hsame ⟨known, hb⟩
      refine hleft k c v known key w b hc hv ?_ hb
      by_contra hsome
      obtain ⟨u, hu⟩ := Option.ne_none_iff_exists'.1 hsome
      cases (hsame u hu).1

end Faced

/-- What a box shows of the value it is there for: the text of an equal one. -/
def Tells (v : Value) (key : Option Key) (w : Value) (b : Box) : Prop :=
  boxText w = .ok b.text ∧ ∀ u, valueFor v key = some u → u.equal w = .ok true

/-- What holds of the sprite under a key after some frames. -/
def Mirrored (types : Types) : List Memory → Root → Sprite → Prop := Faced types fun _ _ => Tells

section Mirrored

open Timeline (Follows Frame)
open Board (Depicts Upheld keysOf)

variable {f : Run.Frame} {before : Run.Situation} {frame : Frame} {past : List Memory} {m : Memory} {k : Root}
  {c : Cell} {v u : Value} {key : Option Key} {b : Box}

theorem tells_drawn {types : Types} {known : List Memory.Address} (h : Lawful types m)
    (hnamed : types.WellNamed) (hdefined : m.Defined) (hc : m.rootCell? k = some c)
    (hv : c.value types.graph = .ok v) (hu : ∀ u', valueFor v key = some u' → u' = u) (hb : b.Shows known u) :
    Tells v key u b := by
  refine ⟨hb.1, fun u' hu' => ?_⟩
  cases hu u' hu'
  exact (valueFor_regular (h.regular hnamed hdefined hc hv) hu').equal_self

theorem Mirrored.upheld (hnamed : f.types.WellNamed) (hpast : past.headD {} = before.memory)
    (hbefore : before.memory.Defined) (hnow : frame.memory.Defined) (h : Follows f before frame) :
    Upheld f.types.graph before frame (Mirrored f.types past) (Mirrored f.types (frame.memory :: past)) := by
  refine Faced.upheld hnamed hpast h ?_ ?_ ?_ ?_
  · intro k c v known key u b _ hc hv hu hb
    exact tells_drawn h.now hnamed hnow hc hv hu hb
  · intro k c₀ c v₀ v known key u b w b₀ _ _ _ hc hv _ hu hb _ _
    exact tells_drawn h.now hnamed hnow hc hv hu hb
  · intro k c₀ c v₀ v key w b _ _ _ _ hold hsame
    exact ⟨hold.1, fun u hu => equal_of_differs (hsame u hu)⟩
  · intro k c₀ c v₀ v key w b hsame hc₀ hv₀ hc hv hold
    have htally := h.compares.tally hnamed h.now hbefore hnow 0
    have hequal : v.equal v₀ = .ok true := by
      by_contra hunequal
      have hchanged := (htally.changed k).2 ⟨c₀, c, v₀, v, hc₀, hc, hv₀, hv, fun hacross => hunequal hacross.1⟩
      rw [hsame] at hchanged
      cases hchanged
    refine ⟨hold.1, fun u hu => ?_⟩
    obtain ⟨u₀, hu₀, hpart⟩ := valueFor_equal hequal hu
    exact Value.equal_trans hpart (hold.2 u₀ hu₀)

theorem Mirrored.start {t : Theme} {b b' : Board} (hnamed : f.types.WellNamed)
    (hlawful : Lawful f.types frame.memory) (hdefined : frame.memory.Defined)
    (hcompares : Timeline.Compares f.types.graph {} frame.situation frame.diff) (hempty : b.sprites = [])
    (hrun : Board.start f.types.graph t frame b = (.ok (), b')) :
    b'.Depicts (keysOf frame.memory) (Mirrored f.types [frame.memory]) := by
  refine Faced.start hnamed hlawful hcompares hempty hrun ?_ ?_
  · intro k c v known key u b hc hv _ hu hb
    exact tells_drawn hlawful hnamed hdefined hc hv hu hb
  · intro k c v known key w b _ _ hnone hb
    exact ⟨hb.1, fun u hu => by cases hnone.symm.trans hu⟩

end Mirrored

/-- A board that shows a memory, after all the memories of the past. It has a sprite for just the variables
and blocks of the memory. Each box shows the text of a value that is equal to the one it is there for, and
there is a box for just the parts of each value, unless its sprite was made for something else. -/
structure Board.Mirrors (b : Board) (g : Graph) (past : List Memory) (m : Memory) : Prop where
  apart : Memory.KeysApart b.sprites
  keys (k : Root) : (b.sprite? k).isSome = (m.rootCell? k).isSome
  valued : m.Valued g
  texts {k : Root} {c : Cell} {v : Value} {sprite : Sprite} (hc : m.rootCell? k = some c)
    (hv : c.value g = .ok v) (hsprite : b.sprite? k = some sprite) {key : Option Key} {box : Box} {u : Value}
    (hbox : (key, box) ∈ sprite.boxes) (hu : valueFor v key = some u) :
    ∃ w, u.equal w = .ok true ∧ boxText w = .ok box.text
  boxes {k : Root} {c : Cell} {v : Value} {sprite : Sprite} (hc : m.rootCell? k = some c)
    (hv : c.value g = .ok v) (hsprite : b.sprite? k = some sprite) :
    (sprite.boxes.map (·.1) = c.boxKeys g v ∧ ∀ key ∈ c.boxKeys g v, (valueFor v key).isSome = true) ∨
      Outgrown g past k c v

theorem Board.Depicts.mirrors {types : Types} {b : Board} {past : List Memory} {m : Memory}
    (h : b.Depicts (Board.keysOf m) (Mirrored types past)) (hpast : past.headD {} = m)
    (hlawful : Lawful types m) (hvalued : m.Valued types.graph) : b.Mirrors types.graph past m := by
  refine ⟨h.apart, h.keys, hvalued, fun hc hv hk key box u hbox hu => ?_, fun hc hv hk => ?_⟩
  · obtain ⟨w, htext, hequal⟩ := ((h.under hc hk).2 _ _ (hpast ▸ hc) hv).box hbox
    exact ⟨w, hequal u hu, htext⟩
  · obtain ⟨-, hboxes⟩ := (h.under hc hk).1.boxes hlawful hc hv
    exact hboxes.imp_left fun hkeys => ⟨hkeys, fun key hkey => Memory.valueFor_boxKeys hkey⟩

/-- The panel shows the memory. A program is read on what earlier programs of the session saved, or on
nothing, and is recorded while it runs, and no number is undefined in any of the frames. Then every picture
of the show of this timeline, with any theme and any marks, is that of a board after some of the first
frames; no frame asks for a place among the blocks where there is none, or for a variable to be taken away;
and a board after any of the frames mirrors the frame's memory. -/
theorem panel_mirrors_memory {saved : Option Session.Saved} (hsaved : Session.Reached saved)
    {setting : Reading.Setting} {text : String} {p : Syntax.Program} {types : Types}
    (hopens : Session.Opens saved setting text p types) (limits : Types.Limits) (indexing : Bool)
    (looping : List Nat) (n : Nat) (theme : Theme) (marked : List Nat) (markedOnly : Bool) (stopAt : String) :
    let f : Run.Frame := ⟨types, limits, indexing⟩
    let memory := saved.map (·.memory)
    let run := Run.runProgram f (Timeline.recorder types.graph p) p memory.isSome n
      (.start memory looping #[])
    let script : Script := ⟨types.graph, theme, p.items.toArray, run.2.seen, marked, markedOnly, stopAt⟩
    let frames := run.2.seen.toList
    (∀ frame ∈ frames, frame.memory.Defined) →
      (∀ tick ∈ script.run.2.ticks, ∃ k b, script.Reaches k b ∧ tick.sprites = b.sprites) ∧
      (∀ frame ∈ frames, (∀ name, Root.stack name ∉ frame.diff.deleted) ∧
        ∀ root ∈ frame.diff.new ++ frame.diff.changed ++ frame.diff.deleted, inHeap root = true →
          script.board.heap = true) ∧
      ∀ i frame b, frames[i]? = some frame → script.Reaches (i + 1) b →
        b.Mirrors types.graph ((frames.take (i + 1)).map (·.memory)).reverse frame.memory := by
  intro f memory run script frames hdefined
  obtain ⟨hready, hdeclared⟩ := hopens.ready hsaved.ready
  obtain ⟨opening, rest, hrecording⟩ :=
    Timeline.runProgram_recording (f := f) (p := p) hready.valued looping n
  have hseen : frames = opening ++ rest := hrecording.seen
  have hlinked := hrecording.linked hready.toFit hdeclared
  refine ⟨Script.run_fair (hrecording.order hopens.filled), fun frame hframe => ⟨?_, ?_⟩, ?_⟩
  · exact hrecording.keeps_stack hready.sound.graph hlinked frame (hseen ▸ hframe)
  · intro root hroot hheap
    by_contra hroom
    have hempty : (heapCells run.2.seen).isEmpty = true := by simpa [Script.board] using hroom
    rw [← hseen] at hlinked
    rw [hlinked.room hempty frame hframe root hroot] at hheap
    cases hheap
  · intro i frame b hi hreaches
    obtain ⟨hlawful, hvalued⟩ := hlinked.each frame (hseen ▸ List.mem_of_getElem? hi)
    have hdrawn := hrecording.depicts hready hdeclared (fun e he => by cases he) hdefined
      (fun frame b b' hlawful hdefined hcompares hempty hrun =>
        Mirrored.start (f := f) hready.named hlawful hdefined hcompares hempty hrun)
      (fun past before frame hpast hbefore hnow hfollows =>
        Mirrored.upheld hready.named hpast hbefore hnow hfollows) rfl hi hreaches
    exact hdrawn.mirrors (Timeline.last_memory hi) hlawful hvalued

def keptPair : String :=
  "type t = tuple\na: int\nb: char\nend tuple\nvar p: pointer of t\nalloc(p)\np->a := 1\n"

/-- An array is declared and written to, then a field of the block, and the block is freed. -/
def freedPair : String := "var x: array [2] of int\nx[1] := 5\np->b := 'c'\nfree(p)\n"

/-- The texts of a sprite's boxes, with their keys. -/
def Sprite.texts (sprite : Sprite) : List (Option Key × String) := sprite.boxes.map fun e => (e.1, e.2.text)

def pairTexts : List (List (Option Key × String)) :=
  [[(none, "H00000")], [(some (.field "a"), "1"), (some (.field "b"), "c")],
    [(some (.index 0), "<?>"), (some (.index 1), "5")]]

theorem freedPair_shown :
    Session.savesFrom keptPair (fun saved => Session.recordsOn saved freedPair 9 fun p types seen =>
      let script : Script := ⟨types.graph, {}, p.items.toArray, seen, [], false, ""⟩
      seen.toList.all (fun frame => frame.memory.Defined) && seen.toList[3]?.isSome &&
        passes ((seen.toList.take 4).forM (Board.showFrame types.graph {})) script.board fun _ b =>
          b.sprites.map (·.2.texts) == pairTexts) = true := by
  decide +kernel

theorem freedPair_mirrored :
    ∃ saved p types, Session.Reached (some saved) ∧ Session.Opens (some saved) {} freedPair p types ∧
      let run := Run.runProgram ⟨types, {}, true⟩ (Timeline.recorder types.graph p) p true 9
        (.start (some saved.memory) [] #[])
      let script : Script := ⟨types.graph, {}, p.items.toArray, run.2.seen, [], false, ""⟩
      let frames := run.2.seen.toList
      (∀ frame ∈ frames, frame.memory.Defined) ∧ ∃ frame b, frames[3]? = some frame ∧
        script.Reaches 4 b ∧ b.sprites.map (·.2.texts) = pairTexts ∧
        b.Mirrors types.graph ((frames.take 4).map (·.memory)).reverse frame.memory := by
  obtain ⟨saved, hreached, hshown⟩ := Session.of_savesFrom freedPair_shown
  obtain ⟨p, types, hopens, hshown⟩ := Session.of_recordsOn hshown
  simp only [Bool.and_eq_true, List.all_eq_true, decide_eq_true_eq] at hshown
  obtain ⟨⟨hdefined, hframe⟩, hshown⟩ := hshown
  obtain ⟨frame, hframe⟩ := Option.isSome_iff_exists.1 hframe
  obtain ⟨_, b, hreaches, htexts⟩ := of_passes hshown
  obtain ⟨-, -, hmirrors⟩ := panel_mirrors_memory hreached hopens {} true [] 9 {} [] false "" hdefined
  exact ⟨saved, p, types, hreached, hopens, hdefined, frame, b, hframe, hreaches, beq_iff_eq.1 htexts,
    hmirrors 3 frame b hframe hreaches⟩

/-- A variable whose type is another name for an array, with a text of two letters in it. -/
def keptWord : String :=
  "type e = enumerate\nAb\nE\nend enumerate\ntype s = array [2] of e\nvar x: s\nx := 'A' + 'b'\n"

def shortenedWord : String := "x := 'E'\nskip\n"

theorem shortenedWord_shown :
    Session.savesFrom keptWord (fun saved => Session.recordsOn saved shortenedWord 9 fun p types seen =>
      let script : Script := ⟨types.graph, {}, p.items.toArray, seen, [], false, ""⟩
      seen.toList.all (fun frame => frame.memory.Defined) &&
        (seen.toList[1]?).any (fun frame => (frame.value? types.graph (.stack "x")).any fun v =>
          (boxText v).toOption == some "E" && (valueFor v (some (.index 1))).isNone) &&
        passes ((seen.toList.take 2).forM (Board.showFrame types.graph {})) script.board fun _ b =>
          (b.sprite? (.stack "x")).any fun sprite =>
            sprite.texts == [(some (.index 0), "E"), (some (.index 1), "b")]) = true := by
  decide +kernel

/-- A letter is left over: after the text of an undivided array got shorter, there is a box with nothing in
the memory to show. -/
theorem shortenedWord_left_over :
    ∃ saved p types, Session.Reached (some saved) ∧ Session.Opens (some saved) {} shortenedWord p types ∧
      let run := Run.runProgram ⟨types, {}, true⟩ (Timeline.recorder types.graph p) p true 9
        (.start (some saved.memory) [] #[])
      let script : Script := ⟨types.graph, {}, p.items.toArray, run.2.seen, [], false, ""⟩
      (∀ frame ∈ run.2.seen.toList, frame.memory.Defined) ∧
      ∃ frame v b sprite, run.2.seen.toList[1]? = some frame ∧
        frame.value? types.graph (.stack "x") = some v ∧ (boxText v).toOption = some "E" ∧
        valueFor v (some (.index 1)) = none ∧ script.Reaches 2 b ∧ b.sprite? (.stack "x") = some sprite ∧
        sprite.texts = [(some (.index 0), "E"), (some (.index 1), "b")] := by
  obtain ⟨saved, hreached, hshown⟩ := Session.of_savesFrom shortenedWord_shown
  obtain ⟨p, types, hopens, hshown⟩ := Session.of_recordsOn hshown
  simp only [Bool.and_eq_true, List.all_eq_true, decide_eq_true_eq, Option.any_eq_true, beq_iff_eq,
    Option.isNone_iff_eq_none] at hshown
  obtain ⟨⟨hdefined, frame, hframe, v, hv, htext, hnone⟩, hshown⟩ := hshown
  obtain ⟨_, b, hreaches, hboxes⟩ := of_passes hshown
  obtain ⟨sprite, hsprite, hboxes⟩ := (Option.any_eq_true _ _).1 hboxes
  exact ⟨saved, p, types, hreached, hopens, hdefined, frame, v, b, sprite, hframe, hv, htext, hnone, hreaches,
    hsprite, beq_iff_eq.1 hboxes⟩

end Chalkboard.Picture
