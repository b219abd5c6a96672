import Chalkboard.Proofs.Recording
import Chalkboard.Proofs.Sprites

/-! Boards that follow a timeline. What is kept of every sprite while it is made, set and left alone is kept
along all frames that are shown. -/

namespace Chalkboard.Picture

open Effects
open Chalkboard.Types (Graph TypeId)
open Memory (Address Root Cell KeysApart)
open Timeline (Frame among among_iff)

namespace Board

def sprite? (b : Board) (k : Root) : Option Sprite := (b.sprites.find? fun (r, _) => r.same k).map (·.2)

/-- There are sprites under just the keys that are present, each under its own, and of each something holds. -/
structure Depicts (b : Board) (present : Root → Prop) (G : Root → Sprite → Prop) : Prop where
  apart : KeysApart b.sprites
  drawn {k : Root} (hk : present k) : ∃ s, b.sprite? k = some s ∧ G k s
  absent {k : Root} (hk : ¬present k) : b.sprite? k = none

section Steps

variable {g : Graph} {t : Theme} {lights anew : Bool} {f : Frame} {root : Root} {b b' : Board}

theorem frameCell_ok {c : Cell} (h : frameCell f root = .ok c) : f.memory.rootCell? root = some c := by
  rw [frameCell, Timeline.Frame.cell?_eq] at h
  cases hc : f.memory.rootCell? root with
  | none =>
    rw [hc] at h
    cases h
  | some c' =>
    rw [hc] at h
    cases h
    rfl

theorem paint_ok {α : Type} {m : PaletteM α} {a : α} (h : paint m b = (.ok a, b')) :
    ∃ p, m b.palette = (.ok a, p) ∧ b' = { b with palette := p } := by
  rcases hm : m.run b.palette with ⟨r, p⟩
  have hpaint : paint m b = (r, { b with palette := p }) := by
    unfold paint
    rw [hm]
  rw [hpaint] at h
  cases h
  exact ⟨p, hm, rfl⟩

theorem needRoom_ok (h : needRoom root b = (.ok (), b')) : b' = b ∧ (inHeap root = true → b.heap = true) := by
  obtain ⟨_, b₁, hget, h⟩ := bind_ok h
  cases hget
  split at h
  · cases h
  · rename_i hroom
    cases h
    exact ⟨rfl, fun hheap => by simpa [hheap] using hroom⟩

theorem addStep_ok (h : (do add (← studio g t lights) f root : BoardM Unit) b = (.ok (), b')) :
    ∃ c v sprite p, f.memory.rootCell? root = some c ∧ c.value g = .ok v ∧
      Sprite.make ⟨g, t, addresses b.sprites, lights⟩ (inHeap root) root.label c.type v b.palette =
        (.ok sprite, p) ∧
      b' = { b with palette := p, sprites := b.sprites ++ [(root, sprite)] } := by
  obtain ⟨s, b₁, hs, h⟩ := bind_ok h
  cases hs
  obtain ⟨c, hc, h⟩ := lift_bind_ok h
  obtain ⟨v, hv, h⟩ := lift_bind_ok h
  obtain ⟨sprite, b₄, hsprite, h⟩ := bind_ok h
  obtain ⟨p, hmade, rfl⟩ := paint_ok hsprite
  obtain ⟨_, b₅, hroom, h⟩ := bind_ok h
  obtain ⟨rfl, -⟩ := needRoom_ok hroom
  cases h
  exact ⟨c, v, sprite, p, frameCell_ok hc, hv, hmade, rfl⟩

theorem changeStep_ok (h : (do change (← studio g t lights) anew f root : BoardM Unit) b = (.ok (), b')) :
    ∃ c v old sprite, f.memory.rootCell? root = some c ∧ c.value g = .ok v ∧ b.sprite? root = some old ∧
      old.set ⟨g, t, addresses b.sprites, lights⟩ anew v = (sprite, .ok ()) ∧
      b' = { b with
        sprites := b.sprites.map fun (r, old) => (r, if r.same root then sprite else old) } := by
  obtain ⟨s, b₁, hs, h⟩ := bind_ok h
  cases hs
  obtain ⟨c, hc, h⟩ := lift_bind_ok h
  obtain ⟨v, hv, h⟩ := lift_bind_ok h
  obtain ⟨_, b₄, hget, h⟩ := bind_ok h
  cases hget
  rcases hfind : b.sprites.find? fun (r, _) => r.same root with _ | ⟨r, old⟩
  · rw [hfind] at h
    cases h
  rw [hfind] at h
  dsimp only at h
  rcases hset : old.set ⟨g, t, addresses b.sprites, lights⟩ anew v with ⟨sprite, e | _⟩
  · rw [hset] at h
    obtain ⟨_, _, -, h⟩ := bind_ok h
    cases h
  rw [hset] at h
  obtain ⟨_, b₅, hmodify, h⟩ := bind_ok h
  cases hmodify
  cases h
  refine ⟨c, v, old, sprite, frameCell_ok hc, hv, ?_, hset, rfl⟩
  rw [sprite?, hfind]
  rfl

theorem remove_ok (h : remove root b = (.ok (), b')) :
    b' = { b with sprites := b.sprites.filter fun (r, _) => !r.same root } := by
  cases root with
  | stack name => cases h
  | heap a =>
    obtain ⟨_, b₁, hget, h⟩ := bind_ok h
    cases hget
    split at h
    · cases h
    · obtain ⟨_, b₂, hmodify, h⟩ := bind_ok h
      cases hmodify
      exact (needRoom_ok h).1

end Steps

section Keys

variable {b : Board} {j k root : Root}

theorem sprite?_congr (hjk : j.same k = true) : b.sprite? j = b.sprite? k := by
  rw [sprite?, sprite?]
  congr 2
  funext e
  exact Root.same_congr hjk e.1

theorem same_of_sprite? (h : b.sprite? k = none) {e : Root × Sprite} (he : e ∈ b.sprites) :
    e.1.same k = false := by
  rw [sprite?, Option.map_eq_none_iff, List.find?_eq_none] at h
  simpa using h e he

theorem known_iff (b : Board) (a : Address) :
    ((addresses b.sprites).any (·.same a)) = (b.sprite? (.heap a)).isSome := by
  rw [sprite?, Option.isSome_map, addresses]
  induction b.sprites with
  | nil => rfl
  | cons e rest ih =>
    obtain ⟨r, s⟩ := e
    rw [List.find?_cons, List.filterMap_cons]
    cases r with
    | stack name => exact ih
    | heap a' =>
      dsimp only
      rw [List.any_cons, ih]
      cases hsame : a'.same a with
      | true => simp [Root.same, hsame]
      | false => simp [Root.same, hsame]

end Keys

section Lists

variable {g : Graph} {t : Theme} {lights anew : Bool} {f : Frame} {roots : List Root} {b b' : Board}
  {present : Root → Prop} {G G' : Root → Sprite → Prop}

theorem among_cons (k root : Root) (roots : List Root) :
    among k (root :: roots) = (root.same k || among k roots) := List.any_cons

variable {root : Root} {sprite : Sprite}

theorem among_of_same {k : Root} (hapart : ∀ r ∈ roots, root.same r = false)
    (hsame : root.same k = true) : among k roots = false := by
  rw [← Bool.not_eq_true, among_iff]
  rintro ⟨r, hr, hrk⟩
  have hfalse := hapart r hr
  rw [Root.same_trans hsame (Root.same_symm hrk)] at hfalse
  cases hfalse

theorem Depicts.pushed {p : Palette} (h : b.Depicts present G)
    (hnew : ¬present root) (hsprite : ∀ k, root.same k = true → G' k sprite) :
    Depicts { b with palette := p, sprites := b.sprites ++ [(root, sprite)] }
      (fun k => present k ∨ root.same k = true)
      (fun k s => (root.same k = true → G' k s) ∧ (root.same k = false → G k s)) := by
  have hfind (k : Root) : Board.sprite? { b with palette := p, sprites := b.sprites ++ [(root, sprite)] } k =
      (b.sprite? k).or (if root.same k then some sprite else none) := by
    rw [sprite?, sprite?, List.find?_append, Option.map_or]
    cases hsame : root.same k <;> simp [hsame]
  refine ⟨?_, fun {k} hk => ?_, fun {k} hk => ?_⟩
  · rw [KeysApart, List.map_append, List.pairwise_append]
    refine ⟨h.apart, List.pairwise_singleton _ _, fun j hj k hk => ?_⟩
    obtain ⟨e, he, rfl⟩ := List.mem_map.1 hj
    cases List.mem_singleton.1 hk
    exact same_of_sprite? (h.absent hnew) he
  · rw [hfind]
    cases hsame : root.same k with
    | true =>
      have hnone : b.sprite? k = none := (sprite?_congr hsame).symm.trans (h.absent hnew)
      exact ⟨sprite, by simp [hnone], fun _ => hsprite k hsame, fun hfalse => by cases hfalse⟩
    | false =>
      obtain ⟨s, hs, hG⟩ := h.drawn (hk.resolve_right (by simp [hsame]))
      exact ⟨s, by simp [hs], (fun htrue => by cases htrue), fun _ => hG⟩
  · rw [not_or] at hk
    rw [hfind, h.absent hk.1]
    simp [hk.2]

theorem Depicts.imp {present' : Root → Prop} (h : b.Depicts present G) (hpresent : ∀ k, present' k ↔ present k)
    (hG : ∀ k s, present k → G k s → G' k s) : b.Depicts present' G' := by
  refine ⟨h.apart, fun {k} hk => ?_, fun {k} hk => h.absent (mt (hpresent k).2 hk)⟩
  obtain ⟨s, hs, hGs⟩ := h.drawn ((hpresent k).1 hk)
  exact ⟨s, hs, hG k s ((hpresent k).1 hk) hGs⟩

theorem Depicts.adds (h : b.Depicts present G) (hapart : roots.Pairwise fun j k => j.same k = false)
    (hnew : ∀ k, among k roots = true → ¬present k)
    (hmade : ∀ k c v s inHeap label p p' sprite, among k roots = true → f.memory.rootCell? k = some c →
      c.value g = .ok v → s.graph = g → Sprite.make s inHeap label c.type v p = (.ok sprite, p') → G' k sprite)
    (hrun : (roots.forM fun root => do add (← studio g t lights) f root : BoardM Unit) b = (.ok (), b')) :
    b'.Depicts (fun k => present k ∨ among k roots = true)
      (fun k s => (among k roots = true → G' k s) ∧ (among k roots = false → G k s)) := by
  induction roots generalizing b present G with
  | nil =>
    cases hrun
    refine h.imp (fun k => by simp [among]) fun k s _ hs => ⟨(fun hfalse => by cases hfalse), fun _ => hs⟩
  | cons root rest ih =>
    obtain ⟨hroot, hrest⟩ := List.pairwise_cons.1 hapart
    obtain ⟨_, b₁, hadd, hrun⟩ := bind_ok hrun
    obtain ⟨c, v, sprite, p, hc, hv, hsprite, rfl⟩ := addStep_ok hadd
    have hfirst (k : Root) (hsame : root.same k = true) : G' k sprite := by
      refine hmade k c v _ _ _ _ _ sprite (by rw [among_cons, hsame]; rfl) ?_ hv rfl hsprite
      rw [← hc, Memory.rootCell?_congr hsame]
    have hapart (k : Root) (hsame : root.same k = true) : among k rest = false := among_of_same hroot hsame
    have hnext := ih (h.pushed (hnew root (by rw [among_cons, Root.same_refl]; rfl)) hfirst) hrest
      (fun k hk hpresent => ?_) (fun k c v s inHeap label p p' sprite hk => ?_) hrun
    · refine hnext.imp (fun k => ?_) fun k s _ hs => ?_
      · rw [among_cons, Bool.or_eq_true, or_assoc]
      · rw [among_cons]
        cases hsame : root.same k with
        | true => exact ⟨fun _ => (hs.2 (hapart k hsame)).1 hsame, fun hfalse => by cases hfalse⟩
        | false => exact ⟨hs.1, fun hrest => (hs.2 hrest).2 hsame⟩
    · rcases hpresent with hpresent | hsame
      · exact hnew k (by rw [among_cons, hk, Bool.or_true]) hpresent
      · rw [hapart k hsame] at hk
        cases hk
    · exact hmade k c v s inHeap label p p' sprite (by rw [among_cons, hk, Bool.or_true])

theorem Depicts.replaced (h : b.Depicts present G)
    (hsprite : ∀ k, root.same k = true → G' k sprite) :
    Depicts { b with sprites := b.sprites.map fun (r, old) => (r, if r.same root then sprite else old) }
      present (fun k s => (root.same k = true → G' k s) ∧ (root.same k = false → G k s)) := by
  set sprites := b.sprites.map fun (r, old) => (r, if r.same root then sprite else old) with hsprites
  have hfind (k : Root) : Board.sprite? { b with sprites := sprites } k =
      (b.sprite? k).map fun s => if root.same k then sprite else s := by
    rw [sprite?, sprite?, hsprites, List.find?_map, Option.map_map, Option.map_map]
    change (b.sprites.find? fun e => e.1.same k).map _ = (b.sprites.find? fun e => e.1.same k).map _
    cases hfound : b.sprites.find? fun e => e.1.same k with
    | none => rfl
    | some e =>
      have hek : e.1.same k = true := by simpa using List.find?_some hfound
      have hsame : e.1.same root = root.same k := by
        rw [Bool.eq_iff_iff]
        exact ⟨fun h => Root.same_trans (Root.same_symm h) hek,
          fun h => Root.same_trans hek (Root.same_symm h)⟩
      simp [hsame]
  refine ⟨?_, fun {k} hk => ?_, fun {k} hk => ?_⟩
  · have hkeys : sprites.map (·.1) = b.sprites.map (·.1) := by
      rw [hsprites, List.map_map]
      rfl
    rw [KeysApart, hkeys]
    exact h.apart
  · obtain ⟨s, hs, hG⟩ := h.drawn hk
    rw [hfind, hs]
    cases hsame : root.same k with
    | true => exact ⟨sprite, rfl, fun _ => hsprite k hsame, fun hfalse => by cases hfalse⟩
    | false => exact ⟨s, rfl, (fun htrue => by cases htrue), fun _ => hG⟩
  · rw [hfind, h.absent hk]
    rfl

theorem Depicts.changes (h : b.Depicts present G) (hapart : roots.Pairwise fun j k => j.same k = false)
    (hset : ∀ k c v old s sprite, among k roots = true → f.memory.rootCell? k = some c → c.value g = .ok v →
      present k → G k old → s.graph = g → (∀ a, s.known.any (·.same a) = true ↔ present (.heap a)) →
      old.set s anew v = (sprite, .ok ()) → G' k sprite)
    (hrun : (roots.forM fun root => do change (← studio g t lights) anew f root : BoardM Unit) b =
      (.ok (), b')) :
    b'.Depicts present (fun k s => (among k roots = true → G' k s) ∧ (among k roots = false → G k s)) := by
  induction roots generalizing b G with
  | nil =>
    cases hrun
    refine h.imp (fun k => Iff.rfl) fun k s _ hs => ⟨(fun hfalse => by cases hfalse), fun _ => hs⟩
  | cons root rest ih =>
    obtain ⟨hroot, hrest⟩ := List.pairwise_cons.1 hapart
    obtain ⟨_, b₁, hchange, hrun⟩ := bind_ok hrun
    obtain ⟨c, v, old, sprite, hc, hv, hold, hsprite, rfl⟩ := changeStep_ok hchange
    have hknown (a : Address) : (addresses b.sprites).any (·.same a) = true ↔ present (.heap a) := by
      rw [known_iff]
      by_cases ha : present (.heap a)
      · obtain ⟨s, hs, -⟩ := h.drawn ha
        simp [hs, ha]
      · simp [h.absent ha, ha]
    have hfirst (k : Root) (hsame : root.same k = true) : G' k sprite := by
      have hk : b.sprite? k = some old := (sprite?_congr hsame).symm.trans hold
      have hpresent : present k := by
        by_contra habsent
        cases hk.symm.trans (h.absent habsent)
      obtain ⟨s, hs, hG⟩ := h.drawn hpresent
      cases hk.symm.trans hs
      exact hset k c v old _ sprite (by rw [among_cons, hsame]; rfl)
        (Memory.rootCell?_congr hsame ▸ hc) hv hpresent hG rfl hknown hsprite
    have hapart (k : Root) (hsame : root.same k = true) : among k rest = false := among_of_same hroot hsame
    have hnext := ih (h.replaced hfirst) hrest (fun k c v old s sprite hk hc hv hpresent hG => ?_) hrun
    · refine hnext.imp (fun k => Iff.rfl) fun k s _ hs => ?_
      rw [among_cons]
      cases hsame : root.same k with
      | true => exact ⟨fun _ => (hs.2 (hapart k hsame)).1 hsame, fun hfalse => by cases hfalse⟩
      | false => exact ⟨hs.1, fun hrest => (hs.2 hrest).2 hsame⟩
    · refine hset k c v old s sprite (by rw [among_cons, hk, Bool.or_true]) hc hv hpresent (hG.2 ?_)
      rw [← Bool.not_eq_true]
      intro hsame
      rw [hapart k hsame] at hk
      cases hk

theorem Depicts.filtered (h : b.Depicts present G) (root : Root) :
    Depicts { b with sprites := b.sprites.filter fun (r, _) => !r.same root }
      (fun k => present k ∧ root.same k = false) G := by
  have hfind (k : Root) : Board.sprite? { b with sprites := b.sprites.filter fun (r, _) => !r.same root } k =
      if root.same k then none else b.sprite? k := by
    rw [sprite?, sprite?, List.find?_filter]
    cases hsame : root.same k with
    | true =>
      have hnone : (b.sprites.find? fun e => !e.1.same root && e.1.same k) = none := by
        rw [List.find?_eq_none]
        intro e _
        rw [Root.same_congr hsame]
        simp
      simpa using hnone
    | false =>
      have hother : (fun e : Root × Sprite => !e.1.same root && e.1.same k) = fun e => e.1.same k := by
        funext e
        cases hek : e.1.same k with
        | false => simp
        | true =>
          have hne : e.1.same root = false := by
            rw [← Bool.not_eq_true]
            intro her
            rw [Root.same_trans (Root.same_symm her) hek] at hsame
            cases hsame
          simp [hne]
      simpa using congrArg (fun p => (b.sprites.find? p).map (·.2)) hother
  refine ⟨?_, fun {k} hk => ?_, fun {k} hk => ?_⟩
  · exact h.apart.sublist (List.filter_sublist.map _)
  · obtain ⟨s, hs, hG⟩ := h.drawn hk.1
    exact ⟨s, by rw [hfind, hk.2]; exact hs, hG⟩
  · rw [hfind]
    split
    · rfl
    · rename_i hsame
      exact h.absent fun hpresent => hk ⟨hpresent, by simpa using hsame⟩

theorem Depicts.removes (h : b.Depicts present G) (hrun : roots.forM remove b = (.ok (), b')) :
    b'.Depicts (fun k => present k ∧ among k roots = false) G := by
  induction roots generalizing b present with
  | nil =>
    cases hrun
    exact h.imp (fun k => by simp [among]) fun k s _ hs => hs
  | cons root rest ih =>
    obtain ⟨_, b₁, hremove, hrun⟩ := bind_ok hrun
    cases remove_ok hremove
    refine (ih (h.filtered root) hrun).imp (fun k => ?_) fun k s _ hs => hs
    rw [among_cons, Bool.or_eq_false_iff, and_assoc]

end Lists

section Frames

variable {g : Graph} {t : Theme} {lights : Bool} {f : Frame} {b b' : Board} {before : Run.Situation}
  {G G' : Root → Sprite → Prop}

def keysOf (m : Memory) (k : Root) : Prop := (m.rootCell? k).isSome = true

theorem Depicts.under {m : Memory} {k : Root} {c : Cell} {sprite : Sprite} (h : b.Depicts (keysOf m) G)
    (hc : m.rootCell? k = some c) (hsprite : b.sprite? k = some sprite) : G k sprite := by
  obtain ⟨sprite', hsprite', hG⟩ := h.drawn (k := k) (by rw [keysOf, hc]; rfl)
  cases hsprite.symm.trans hsprite'
  exact hG

theorem Depicts.keys {m : Memory} (h : b.Depicts (keysOf m) G) (k : Root) :
    (b.sprite? k).isSome = (m.rootCell? k).isSome := by
  cases hc : m.rootCell? k with
  | none =>
    rw [h.absent (by simp [keysOf, hc])]
    rfl
  | some c =>
    obtain ⟨sprite, hsprite, -⟩ := h.drawn (k := k) (by rw [keysOf, hc]; rfl)
    rw [hsprite]
    rfl

/-- What is asked of a frame to keep something of all sprites: it has to hold of the sprites that are made
for new keys and of those that are set because their keys have changed, and to stay with the others. -/
structure Upheld (g : Graph) (before : Run.Situation) (f : Frame) (G G' : Root → Sprite → Prop) : Prop where
  compares : Timeline.Compares g before f.situation f.diff
  made {k : Root} {c : Cell} {v : Value} {s : Studio} {inHeap : Bool} {label : String} {p p' : Palette}
    {sprite : Sprite} (hbefore : before.memory.rootCell? k = none) (hc : f.memory.rootCell? k = some c)
    (hv : c.value g = .ok v) (hs : s.graph = g)
    (hmade : Sprite.make s inHeap label c.type v p = (.ok sprite, p')) : G' k sprite
  set {k : Root} {c c' : Cell} {v : Value} {old : Sprite} {s : Studio} {sprite : Sprite}
    (hchanged : among k f.diff.changed = true) (hc : before.memory.rootCell? k = some c)
    (hc' : f.memory.rootCell? k = some c') (hv : c'.value g = .ok v) (hold : G k old) (hs : s.graph = g)
    (hknown : ∀ a, s.known.any (·.same a) = true ↔ keysOf before.memory (.heap a) ∨ keysOf f.memory (.heap a))
    (hset : old.set s false v = (sprite, .ok ())) : G' k sprite
  kept {k : Root} {c c' : Cell} {sprite : Sprite} (hsame : among k f.diff.changed = false)
    (hc : before.memory.rootCell? k = some c) (hc' : f.memory.rootCell? k = some c') (hold : G k sprite) :
    G' k sprite

theorem Depicts.follow (h : b.Depicts (keysOf before.memory) G) (hf : Upheld g before f G G')
    (hrun : follow g t lights f b = (.ok (), b')) : b'.Depicts (keysOf f.memory) G' := by
  have hcompares := hf.compares
  obtain ⟨hapart, -, -⟩ := List.pairwise_append.1 hcompares.apart
  obtain ⟨hnew, hchanged, -⟩ := List.pairwise_append.1 hapart
  obtain ⟨_, b₁, hadds, hrun⟩ := bind_ok hrun
  obtain ⟨_, b₂, hchanges, hremoves⟩ := bind_ok hrun
  have hkeys (k : Root) : (keysOf before.memory k ∨ among k f.diff.new = true) ↔
      keysOf before.memory k ∨ keysOf f.memory k := by
    rw [hcompares.new, keysOf, keysOf]
    cases before.memory.rootCell? k <;> simp [Frame.memory]
  have hadded := h.adds hnew (fun k hk hbefore => ?_) (fun k c v s inHeap label p p' sprite hk hc hv hs =>
    hf.made ((hcompares.new k).1 hk).2 hc hv hs) hadds
  · have hchanged : b₂.Depicts (fun k => keysOf before.memory k ∨ among k f.diff.new = true) fun k s =>
        (among k f.diff.changed = true → G' k s) ∧ (among k f.diff.changed = false →
          (among k f.diff.new = true → G' k s) ∧ (among k f.diff.new = false → G k s)) :=
      hadded.changes hchanged (fun k c v old s sprite hk hc hv hpresent hold hs hknown hset => ?_) hchanges
    · refine (hchanged.removes hremoves).imp (fun k => ?_) fun k s hpresent hs => ?_
      · rw [hkeys, ← Bool.not_eq_true, hcompares.deleted, keysOf, keysOf, ← Frame.memory]
        cases before.memory.rootCell? k <;> cases f.memory.rootCell? k <;> simp
      · cases hk : among k f.diff.changed with
        | true => exact hs.1 hk
        | false =>
          cases hk' : among k f.diff.new with
          | true => exact (hs.2 hk).1 hk'
          | false =>
            obtain ⟨hpresent, hdeleted⟩ := hpresent
            obtain ⟨c, hc⟩ := Option.isSome_iff_exists.1 (hpresent.resolve_right (by simp [hk']))
            rw [← Bool.not_eq_true, hcompares.deleted, hc] at hdeleted
            obtain ⟨c', hc'⟩ := Option.ne_none_iff_exists'.1 fun hnone => hdeleted ⟨rfl, hnone⟩
            exact hf.kept hk hc hc' ((hs.2 hk).2 hk')
    · obtain ⟨c₀, _, _, _, hc₀, -⟩ := (hcompares.changed k).1 hk
      have hk' : among k f.diff.new = false := by
        rw [← Bool.not_eq_true, hcompares.new, hc₀]
        simp
      exact hf.set hk hc₀ hc hv (hold.2 hk') hs (fun a => (hknown a).trans (hkeys (.heap a))) hset
  · rw [keysOf, ((hcompares.new k).1 hk).2] at hbefore
    cases hbefore

theorem Depicts.start (hempty : b.sprites = []) (hcompares : Timeline.Compares g {} f.situation f.diff)
    (hmade : ∀ k c v s inHeap label p p' sprite, f.memory.rootCell? k = some c → c.value g = .ok v →
      s.graph = g → Sprite.make s inHeap label c.type v p = (.ok sprite, p') → G k sprite)
    (hset : ∀ k c v old s sprite, f.memory.rootCell? k = some c → c.value g = .ok v → G k old → s.graph = g →
      (∀ a, s.known.any (·.same a) = true ↔ keysOf f.memory (.heap a)) →
      old.set s true v = (sprite, .ok ()) → G' k sprite)
    (hrun : start g t f b = (.ok (), b')) : b'.Depicts (keysOf f.memory) G' := by
  have hnothing (k : Root) : Memory.rootCell? {} k = none := by cases k <;> rfl
  have hfirst : b.Depicts (keysOf {}) G := by
    refine ⟨by rw [hempty]; exact .nil, fun {k} hk => ?_, fun _ => by rw [sprite?, hempty]; rfl⟩
    rw [keysOf, hnothing] at hk
    cases hk
  obtain ⟨_, b₁, hfollow, hrun⟩ := bind_ok hrun
  have hupheld : Upheld g {} f G G := by
    refine ⟨hcompares, fun _ hc hv hs h => hmade _ _ _ _ _ _ _ _ _ hc hv hs h, fun _ hc => ?_, fun _ hc => ?_⟩
    · cases (hnothing _).symm.trans hc
    · cases (hnothing _).symm.trans hc
  have hdrawn := hfirst.follow hupheld hfollow
  obtain ⟨hapart, -, -⟩ := List.pairwise_append.1 hcompares.apart
  obtain ⟨hnew, -, -⟩ := List.pairwise_append.1 hapart
  have hredrawn : b'.Depicts (keysOf f.memory) fun k s =>
      (among k f.diff.new = true → G' k s) ∧ (among k f.diff.new = false → G k s) :=
    hdrawn.changes hnew (fun k c v old s sprite _ hc hv _ hold hs hknown h =>
      hset k c v old s sprite hc hv hold hs hknown h) hrun
  exact hredrawn.imp (fun _ => Iff.rfl) fun k s hpresent hs =>
    hs.1 ((hcompares.new k).2 ⟨hpresent, hnothing k⟩)

/-- Shows a frame: a loaded memory from the start, any other as a change. -/
def showFrame (g : Graph) (t : Theme) (f : Frame) : BoardM Unit :=
  if f.done.isNone then start g t f else Board.follow g t true f

/-- Frames after one another that each keep something of all sprites, which may depend on all memories so
far, the last one first. -/
def Sustained (g : Graph) (H : List Memory → Root → Sprite → Prop) :
    List Memory → Run.Situation → List Frame → Prop
  | _, _, [] => True
  | past, before, f :: rest =>
    (f.done.isSome = true ∧ Upheld g before f (H past) (H (f.memory :: past))) ∧
      Sustained g H (f.memory :: past) f.situation rest

theorem Depicts.frames {H : List Memory → Root → Sprite → Prop} {past : List Memory} {frames : List Frame}
    (h : b.Depicts (keysOf before.memory) (H past)) (hframes : Sustained g H past before frames) {i : Nat}
    (hi : frames[i]? = some f) (hrun : (frames.take (i + 1)).forM (showFrame g t) b = (.ok (), b')) :
    b'.Depicts (keysOf f.memory) (H (((frames.take (i + 1)).map (·.memory)).reverse ++ past)) := by
  induction frames generalizing b past before i with
  | nil => cases hi
  | cons first rest ih =>
    obtain ⟨⟨hdone, hfirst⟩, hrest⟩ := hframes
    rw [List.take_succ_cons] at hrun ⊢
    obtain ⟨_, b₁, hfollow, hlast⟩ := bind_ok hrun
    have hnot : ¬first.done.isNone = true := by
      cases hfirst : first.done with
      | none =>
        rw [hfirst] at hdone
        cases hdone
      | some => simp
    rw [showFrame, if_neg hnot] at hfollow
    have hdrawn := h.follow hfirst hfollow
    cases i with
    | zero =>
      cases hi
      cases hlast
      exact hdrawn
    | succ i =>
      have hlater := ih hdrawn hrest hi hlast
      rw [List.map_cons, List.reverse_cons, List.append_assoc]
      exact hlater

end Frames

end Board

end Chalkboard.Picture
