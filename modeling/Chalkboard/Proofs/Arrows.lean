import Chalkboard.Proofs.Panels

/-! Where arrows lead. The arrow of a pointer is drawn when the pointer comes to hold another value, and then
it tells the truth: it leads to the block at the address, if there is one. It is not drawn again when the
block comes or goes, so a pointer to a block that was freed through another one still shows an arrow. -/

namespace Chalkboard.Value

/-- Marks of values that a pointer can show: null and addresses. -/
def Mark.points : Mark → Bool
  | .null | .address .. => true
  | _ => false

def aim (v : Value) : Option Mark := v.mark?.filter Mark.points

section Aims

variable {v w u : Value} {a : Memory.Address}

theorem aim_number (m : Option (Int ⊕ Bool)) : (m.map Mark.number).filter Mark.points = none := by
  cases m <;> rfl

theorem aim_none (hnull : v ≠ .null) (haddress : ∀ a, v ≠ .address a) : v.aim = none := by
  cases v with
  | null => exact absurd rfl hnull
  | address a => exact absurd rfl (haddress a)
  | bool | int | real =>
    rw [aim, mark?]
    exact aim_number _
  | _ => rfl

theorem aim_of_equal (h : v.equal w = .ok true) : v.aim = w.aim := by
  cases v with
  | list vs =>
    obtain ⟨ws, rfl, -⟩ := equal_list.1 h
    rfl
  | record vs =>
    obtain ⟨ws, rfl, -⟩ := equal_record.1 h
    rfl
  | _ => rw [aim, aim, ((equal_simple rfl w).1 h).2]

theorem null_of_aim (h : v.aim = aim .null) : v = .null := by
  cases v with
  | null => rfl
  | address => cases h
  | _ => cases (aim_none (by simp) (by simp)).symm.trans h

theorem address_of_aim (h : v.aim = aim (.address a)) : ∃ b, v = .address b ∧ b.same a = true := by
  cases v with
  | address b =>
    have hmark := Option.some.inj h
    exact ⟨b, rfl, by simpa [Memory.Address.same] using hmark⟩
  | null => cases h
  | _ => cases (aim_none (by simp) (by simp)).symm.trans h

theorem aim_of_sameAs {same : Constant → Constant → Bool} {inside : Bool}
    (h : v.sameAs same inside w = .ok true) : v.aim = w.aim := by
  unfold sameAs at h
  split at h
  · rfl
  · rw [aim, aim, mark?, mark?, aim_number, aim_number]
  · rfl
  · rfl
  · exact aim_of_equal h

end Aims

end Chalkboard.Value

namespace Chalkboard.Picture

open Effects
open Chalkboard.Types (Graph TypeId)
open Memory (Root Cell Address Shaped)
open Run (Lawful)

section Values

variable {v w u : Value} {key : Option Key} {a : Address} {known : List Address} {lead : Lead}

theorem valueFor_sameAs {same : Constant → Constant → Bool} {inside : Bool}
    (h : v.sameAs same inside w = .ok true) (hu : valueFor v key = some u) :
    ∃ u', valueFor w key = some u' ∧ u.aim = u'.aim := by
  rcases key with _ | i | name
  · cases hu
    exact ⟨w, rfl, Value.aim_of_sameAs h⟩
  · cases v with
    | list items =>
      obtain ⟨items', rfl, -, hitems⟩ := Value.sameAs_list.1 h
      obtain ⟨u', hu', hsame⟩ := Memory.forall₂_getElem? ((Value.sameItems_iff _ _).1 hitems).flip hu
      exact ⟨u', hu', Value.aim_of_sameAs hsame⟩
    | text s =>
      rw [Value.sameAs] at h
      · obtain ⟨u', hu', hequal⟩ := valueFor_equal h hu
        exact ⟨u', hu', Value.aim_of_equal hequal⟩
      all_goals simp
    | _ => cases hu
  · cases v with
    | record fields =>
      obtain ⟨fields', rfl, -, hfields⟩ := Value.sameAs_record.1 h
      obtain ⟨u', hu', hsame⟩ := (Value.sameFields_iff _ _).1 hfields name u (Types.mem_of_lookup hu)
      exact ⟨u', hu', Value.aim_of_sameAs hsame⟩
    | _ => cases hu

theorem leadOf_nothing (haim : u.aim = none) (h : leadOf known u = .ok lead) : lead = .nowhere := by
  cases u with
  | null => cases haim
  | address => cases haim
  | list | record => cases h
  | _ => cases h; rfl

end Values

end Chalkboard.Picture

namespace Chalkboard.Memory

open Effects
open Chalkboard.Types (Graph TypeId)
open Picture (Key valueFor)

/-- The way to the part of a cell that a box is there for. -/
inductive Cell.PathTo (g : Graph) : Cell → Option Key → List Nat → Prop
  | whole (c : Cell) : PathTo g c none []
  | element {t : TypeId} {parts : List Cell} {n : Nat} (hflat : Cell.lengths g t = .ok [n]) (i : Nat) :
      PathTo g (.array t parts) (some (.index i)) [i]
  | field {t : TypeId} {parts : List (String × Cell)} {name : String} {i : Nat}
      (hname : (parts.map (·.1))[i]? = some name) : PathTo g (.tuple t parts) (some (.field name)) [i]

section Paths

variable {g : Graph} {c : Cell} {v w : Value} {key : Option Key} {path path' : List Nat} {a b : Address}
  {t : TypeId}

theorem Cell.PathTo.of_write (h : (c.write w path').PathTo g key path) : c.PathTo g key path := by
  generalize hc' : c.write w path' = c' at h
  cases h with
  | whole => exact .whole c
  | element hflat i =>
    cases c with
    | leaf | tuple => cases path' <;> cases hc'
    | array t parts =>
      cases path' <;> cases hc' <;> exact .element hflat i
  | field hname =>
    cases c with
    | leaf | array => cases path' <;> cases hc'
    | tuple t parts =>
      cases path' with
      | nil =>
        cases hc'
        exact .field hname
      | cons j path' =>
        cases hc'
        refine .field ?_
        rw [← hname, List.getElem?_map, List.getElem?_map, List.getElem?_modify]
        rw [Option.map_eq_map, Option.map_map]
        refine Option.map_congr fun part _ => ?_
        rw [Function.comp_apply]
        split <;> rfl

theorem at?_write_leaf (h : (c.write w path').at? path = some (.leaf b t v)) :
    ∃ old, c.at? path = some (.leaf b t old) ∧ (v = old ∨ v = w) := by
  induction path' generalizing c path with
  | nil =>
    cases c with
    | leaf b' t' old =>
      cases path with
      | nil =>
        cases h
        exact ⟨old, rfl, .inr rfl⟩
      | cons => cases h
    | array | tuple => exact ⟨v, h, .inl rfl⟩
  | cons i path' ih =>
    cases path with
    | nil =>
      cases c with
      | leaf => exact ⟨v, h, .inl rfl⟩
      | array => cases h
      | tuple => cases h
    | cons j path =>
      rw [Cell.at?] at h
      by_cases hj : j = i
      · subst hj
        rw [Cell.part?_write_same] at h
        obtain ⟨part, hpart, h⟩ := Option.bind_eq_some_iff.1 h
        obtain ⟨part, hpart', rfl⟩ := Option.map_eq_some_iff.1 hpart
        obtain ⟨old, hold, hvalue⟩ := ih h
        exact ⟨old, by rw [Cell.at?, hpart']; exact hold, hvalue⟩
      · rw [Cell.part?_write_ne w hj] at h
        exact ⟨v, h, .inl rfl⟩

theorem pathTo_of_address (hv : c.value g = .ok v) (hsimple : ∀ a t w, c = .leaf a t w → w.isSimple = true)
    (hu : valueFor v key = some (.address a)) :
    ∃ path b t, c.PathTo g key path ∧ c.at? path = some (.leaf b t (.address a)) := by
  rcases key with _ | i | name
  · cases hu
    obtain ⟨b, t, rfl⟩ := Run.value_address hv
    exact ⟨[], b, t, .whole _, rfl⟩
  · cases c with
    | leaf b t w =>
      cases hv
      have hsimple := hsimple b t v rfl
      cases v with
      | list | record => cases hsimple
      | text s =>
        obtain ⟨_, -, htext⟩ := Option.map_eq_some_iff.1 hu
        cases htext
      | _ => cases hu
    | array t parts =>
      rw [Cell.value] at hv
      obtain ⟨items, hitems, hv⟩ := except_bind_ok hv
      obtain ⟨lengths, hlengths, hv⟩ := except_bind_ok hv
      obtain _ | ⟨n, _ | ⟨k, rest⟩⟩ := lengths
      · cases hv
      · cases hv
        obtain ⟨part, hpart, hvalue⟩ := forall₂_getElem? (partValues_ok hitems) hu
        obtain ⟨b, u, rfl⟩ := Run.value_address hvalue
        refine ⟨[i], b, u, .element hlengths i, ?_⟩
        rw [Cell.at?, Cell.part?, hpart]
        rfl
      · rw [Cell.nest] at hv
        dsimp only at hv
        split at hv
        · cases hv
        · obtain ⟨rows, hrows, hv⟩ := except_bind_ok hv
          cases hv
          obtain ⟨_, -, hrow⟩ := forall₂_getElem? (Timeline.mapM_ok hrows) hu
          obtain ⟨_, hlist⟩ := Picture.nest_list hrow
          cases hlist
    | tuple t parts =>
      rw [Cell.value] at hv
      obtain ⟨fields, -, hv⟩ := except_bind_ok hv
      cases hv
      cases hu
  · cases c with
    | leaf b t w =>
      cases hv
      have hsimple := hsimple b t v rfl
      cases v with
      | list | record => cases hsimple
      | _ => cases hu
    | array t parts =>
      rw [Cell.value] at hv
      obtain ⟨items, -, hv⟩ := except_bind_ok hv
      obtain ⟨lengths, -, hv⟩ := except_bind_ok hv
      obtain ⟨rows, rfl⟩ := Picture.nest_list hv
      cases hu
    | tuple t parts =>
      rw [Cell.value] at hv
      obtain ⟨fields, hfields, hv⟩ := except_bind_ok hv
      cases hv
      obtain ⟨i, hi⟩ := List.getElem?_of_mem (Types.mem_of_lookup hu)
      obtain ⟨⟨name', part⟩, hpart, hname, hvalue⟩ := forall₂_getElem? (fieldValues_ok hfields) hi
      obtain rfl : name = name' := hname
      obtain ⟨b, u, rfl⟩ := Run.value_address hvalue
      refine ⟨[i], b, u, .field (by rw [List.getElem?_map, hpart]; rfl), ?_⟩
      rw [Cell.at?, Cell.part?, hpart]
      rfl

theorem valueFor_of_pathTo (hv : c.value g = .ok v) (hnamed : Picture.SingleNamed v) (h : c.PathTo g key path)
    (hat : c.at? path = some (.leaf b t w)) : valueFor v key = some w := by
  cases h with
  | whole =>
    cases hat
    exact congrArg some (Except.ok.inj hv).symm
  | @element t' parts n hflat i =>
    rw [Cell.value] at hv
    obtain ⟨items, hitems, hv⟩ := except_bind_ok hv
    rw [hflat] at hv
    cases hv
    obtain ⟨part, hpart, hat⟩ := Option.bind_eq_some_iff.1 hat
    cases hat
    obtain ⟨u, hu, hvalue⟩ := forall₂_getElem? (partValues_ok hitems).flip hpart
    cases hvalue
    exact hu
  | @field t' parts name i hname =>
    rw [Cell.value] at hv
    obtain ⟨fields, hfields, hv⟩ := except_bind_ok hv
    cases hv
    obtain ⟨part, hpart, hat⟩ := Option.bind_eq_some_iff.1 hat
    cases hat
    obtain ⟨⟨name', part⟩, hpart, rfl⟩ := Option.map_eq_some_iff.1 hpart
    obtain ⟨⟨name'', u⟩, hu, rfl, hvalue⟩ := forall₂_getElem? (fieldValues_ok hfields).flip hpart
    cases hvalue
    rw [List.getElem?_map, hpart] at hname
    cases hname
    exact Types.lookup_of_mem hnamed (List.mem_of_getElem? hu)

end Paths

end Chalkboard.Memory

namespace Chalkboard.Run

open Memory (Root Cell Address Laid)

/-- What becomes of a cell in a step: it stays, or it is written to, and an address only where no block goes
away; or it is new and blank. -/
theorem Turn.becomes {f : Frame} {m m' : Memory} {events : History} (h : Turn f m events m') {k : Root}
    {c' : Cell} (hc' : m'.rootCell? k = some c') :
    (∃ c w path, m.rootCell? k = some c ∧ (c' = c ∨ c' = c.write w path) ∧
      ((∀ a, w ≠ .address a) ∨
        ∀ a, (m.rootCell? (.heap a)).isSome = true → (m'.rootCell? (.heap a)).isSome = true)) ∨
      ∀ path b t v, c'.at? path = some (.leaf b t v) → v = .unknown := by
  have hsame {c : Cell} (hc : m.rootCell? k = some c) (heq : c' = c) :
      ∃ c w path, m.rootCell? k = some c ∧ (c' = c ∨ c' = c.write w path) ∧
        ((∀ a, w ≠ .address a) ∨
          ∀ a, (m.rootCell? (.heap a)).isSome = true → (m'.rootCell? (.heap a)).isSome = true) :=
    ⟨c, .unknown, [], hc, .inl heq, .inl fun a ha => by cases ha⟩
  cases h with
  | still => exact .inl (hsame hc' rfl)
  | moved n =>
    rw [Memory.rootCell?_setNext] at hc'
    exact .inl (hsame hc' rfl)
  | @declared name c n _ hlaid =>
    change Memory.rootCell? { m.setNext .stack n with stack := (m.setNext .stack n).stack ++ [(name, c)] } k =
      some c' at hc'
    rw [Memory.rootCell?_push, Memory.rootCell?_setNext] at hc'
    rcases Option.or_eq_some_iff.1 hc' with hc' | ⟨-, hc'⟩
    · exact .inl (hsame hc' rfl)
    · split at hc'
      · cases hc'
        exact .inr fun path b t v hat => hlaid.blank hat
      · cases hc'
  | @wrote here b t old v =>
    rw [Memory.rootCell?_write] at hc'
    obtain ⟨c, hc, rfl⟩ := Option.map_eq_some_iff.1 hc'
    refine .inl ⟨c, v, here.path, hc, ?_, .inr fun a ha => ?_⟩
    · split
      · exact .inr rfl
      · exact .inl rfl
    · rwa [Memory.rootCell?_write, Option.isSome_map]
  | @stored here c block t target m₁ _ _ _ hlaid _ hm₁ =>
    have hkeys (j : Root) : (m₁.rootCell? j).isSome = (m.rootCell? j).isSome := by
      rw [hm₁, Memory.rootCell?_write, Option.isSome_map, Memory.rootCell?_setNext]
    rw [Memory.rootCell?_enter] at hc'
    split at hc'
    · cases hc'
      exact .inr fun path b t v hat => hlaid.blank hat
    · rw [hm₁, Memory.rootCell?_write, Memory.rootCell?_setNext] at hc'
      obtain ⟨c, hc, rfl⟩ := Option.map_eq_some_iff.1 hc'
      refine .inl ⟨c, .address ⟨.heap, m.nextHeap⟩, here.path, hc, ?_, .inr fun a ha => ?_⟩
      · split
        · exact .inr rfl
        · exact .inl rfl
      · rw [Memory.rootCell?_enter]
        split
        · rfl
        · rw [hkeys]
          exact ha
  | @removed here b a t =>
    rw [Memory.rootCell?_write, Memory.rootCell?_erase] at hc'
    obtain ⟨c, hc, rfl⟩ := Option.map_eq_some_iff.1 hc'
    split at hc
    · cases hc
    · refine .inl ⟨c, .unknown, here.path, hc, ?_, .inl fun a ha => by cases ha⟩
      split
      · exact .inr rfl
      · exact .inl rfl

end Chalkboard.Run

namespace Chalkboard.Timeline

open Chalkboard.Types (Graph)
open Memory (Root Cell Address)
open Picture (Key valueFor singleNamed_of_lawful)
open Picture.Board (keysOf)

section Follows

variable {f : Run.Frame} {before : Run.Situation} {frame : Frame} {k : Root} {c c' : Cell} {v v' : Value}
  {key : Option Key} {a : Address}

theorem Follows.address_from (h : Follows f before frame) (hnamed : f.types.WellNamed)
    (hc' : frame.memory.rootCell? k = some c') (hv' : c'.value f.types.graph = .ok v')
    (hu : valueFor v' key = some (.address a)) : ∃ c, before.memory.rootCell? k = some c ∧
      ∀ v, c.value f.types.graph = .ok v → ∃ u, valueFor v key = some u ∧ (u = .address a ∨
        ∀ b, keysOf before.memory (.heap b) → keysOf frame.memory (.heap b)) := by
  obtain ⟨events, hturn⟩ := h.turn
  obtain ⟨path, b, t, hpath, hat⟩ := Memory.pathTo_of_address hv'
    (fun a t w hleaf => h.now.leaf_simple (hleaf ▸ hc')) hu
  rcases hturn.becomes hc' with ⟨c, w, path', hc, hwritten, hblocks⟩ | hblank
  · refine ⟨c, hc, fun v hv => ?_⟩
    rcases hwritten with rfl | rfl
    · cases hv.symm.trans hv'
      exact ⟨_, hu, .inl rfl⟩
    · obtain ⟨old, hold, hvalue⟩ := Memory.at?_write_leaf hat
      have hnames := singleNamed_of_lawful h.old hnamed hc hv
      refine ⟨old, Memory.valueFor_of_pathTo hv hnames hpath.of_write hold, ?_⟩
      rcases hvalue with rfl | rfl
      · exact .inl rfl
      · exact .inr (hblocks.resolve_left fun hno => hno a rfl)
  · cases hblank path b t _ hat

theorem Follows.sameAs (h : Follows f before frame) (hsame : among k frame.diff.changed = false)
    (hc : before.memory.rootCell? k = some c) (hv : c.value f.types.graph = .ok v)
    (hc' : frame.memory.rootCell? k = some c') (hv' : c'.value f.types.graph = .ok v') :
    v'.sameAs (fun _ _ => false) false v = .ok true := by
  have hchanged := h.compares.changed_iff hc hc' hv hv'
  rw [hsame] at hchanged
  exact (stays_ok.1 (not_not.1 (mt hchanged.2 (by simp)))).1

theorem Follows.unchanged (h : Follows f before frame) {a b : Address}
    (hc : before.memory.rootCell? k = some c) (hv : c.value f.types.graph = .ok (.address b))
    (hc' : frame.memory.rootCell? k = some c') (hv' : c'.value f.types.graph = .ok (.address a))
    (hsame : a.same b = true) : among k frame.diff.changed = false := by
  rw [← Bool.not_eq_true, h.compares.changed_iff hc hc' hv hv', not_not, stays_ok]
  obtain ⟨_, _, rfl⟩ := Run.value_address hv
  obtain ⟨_, _, rfl⟩ := Run.value_address hv'
  refine ⟨?_, rfl⟩
  rw [Value.sameAs, Value.equal, hsame]
  all_goals simp

end Follows

end Chalkboard.Timeline

namespace Chalkboard.Picture

open Effects
open Chalkboard.Types (Graph)
open Memory (Root Cell Address)
open Run (Lawful)
open Timeline (Follows Frame)
open Board (Depicts Upheld keysOf)

/-- The pointer that a box is there for holds this address. -/
def Aimed (g : Graph) (k : Root) (key : Option Key) (a : Address) (m : Memory) : Prop :=
  ∃ c v b, m.rootCell? k = some c ∧ c.value g = .ok v ∧ valueFor v key = some (.address b) ∧ b.same a = true

/-- Something came to hold in a memory of the past and has held ever since. The last memory stands first. -/
inductive Since (P : Memory → Prop) : List Memory → Memory → Prop
  | start {m : Memory} {past : List Memory} (hm : P m) (hbefore : ∀ m' ∈ past.head?, ¬P m') :
      Since P (m :: past) m
  | go {m first : Memory} {past : List Memory} (hm : P m) (h : Since P past first) : Since P (m :: past) first

/-- An arrow that tells the truth: that the pointer is null, that it leads to the block at its address, or
that it leads nowhere. -/
def Lead.Right (m : Memory) (u : Value) (lead : Lead) : Prop :=
  match u with
  | .null => lead = .null
  | .address a =>
    if (m.rootCell? (.heap a)).isSome then ∃ b, lead = .cell b ∧ b.same a = true else lead = .nowhere
  | _ => lead = .nowhere

section Truth

variable {g : Graph} {k : Root} {key : Option Key} {a b : Address} {m : Memory} {lead : Lead}

theorem Aimed.congr (hab : a.same b = true) : Aimed g k key a m ↔ Aimed g k key b m := by
  constructor
  · rintro ⟨c, v, b', hc, hv, hu, hsame⟩
    exact ⟨c, v, b', hc, hv, hu, Memory.Address.same_trans hsame hab⟩
  · rintro ⟨c, v, b', hc, hv, hu, hsame⟩
    exact ⟨c, v, b', hc, hv, hu, Memory.Address.same_trans hsame (Memory.Address.same_symm hab)⟩

theorem Since.congr {P Q : Memory → Prop} {past : List Memory} (h : Since P past m) (hPQ : ∀ m, P m ↔ Q m) :
    Since Q past m := by
  induction h with
  | start hm hbefore => exact .start ((hPQ _).1 hm) fun m' hm' hQ => hbefore m' hm' ((hPQ m').2 hQ)
  | go hm _ ih => exact .go ((hPQ _).1 hm) ih

theorem Lead.Right.congr (h : lead.Right m (.address a)) (hab : a.same b = true) :
    lead.Right m (.address b) := by
  rw [Right] at h ⊢
  rw [Memory.rootCell?_congr (j := .heap b) (k := .heap a) (Memory.Address.same_symm hab)]
  split
  · rename_i hsome
    rw [if_pos hsome] at h
    obtain ⟨b', hlead, hsame⟩ := h
    exact ⟨b', hlead, Memory.Address.same_trans hsame hab⟩
  · rename_i hnone
    rwa [if_neg hnone] at h

theorem right_of_known {known : List Address}
    (hknown : known.any (·.same a) = true ↔ (m.rootCell? (.heap a)).isSome = true)
    (h : leadOf known (.address a) = .ok lead) : lead.Right m (.address a) := by
  cases h
  rw [Lead.Right]
  by_cases hany : known.any (·.same a) = true
  · rw [if_pos (hknown.1 hany), if_pos hany]
    exact ⟨a, rfl, Memory.Address.same_refl a⟩
  · rw [if_neg (mt hknown.2 hany), if_neg hany]

end Truth

/-- What holds of a box and the value it was drawn for: it aims at the same as the value in the memory, and
an arrow to an address tells what was true when the pointer came to hold it. -/
structure Arrowed (g : Graph) (past : List Memory) (k : Root) (v : Value) (key : Option Key) (w : Value)
    (b : Box) : Prop where
  drawn : ∃ known, b.Shows known w
  aims {u : Value} (hu : valueFor v key = some u) : u.aim = w.aim
  leads {lead : Lead} {a : Address} (hlead : b.lead = some lead) (hu : valueFor v key = some (.address a)) :
    ∃ first, Since (Aimed g k key a) past first ∧ lead.Right first (.address a)

section Arrowed

variable {g : Graph} {past : List Memory} {k : Root} {c : Cell} {v v₀ u w : Value} {key : Option Key} {b : Box}
  {m : Memory}

theorem arrowed_drawn {known : List Address} (hu : ∀ u', valueFor v key = some u' → u' = u)
    (hb : b.Shows known u) (hnew : ∀ a lead, valueFor v key = some (.address a) →
      leadOf known (.address a) = .ok lead →
      ∃ first, Since (Aimed g k key a) past first ∧ lead.Right first (.address a)) :
    Arrowed g past k v key u b := by
  refine ⟨⟨known, hb⟩, fun hu' => by rw [hu _ hu'], fun {lead a} hlead hu' => hnew a lead hu' ?_⟩
  rw [hu _ hu']
  exact hb.2 lead hlead

theorem Arrowed.goes (h : Arrowed g past k v₀ key w b) (hc : m.rootCell? k = some c)
    (hv : c.value g = .ok v) (haims : ∀ u, valueFor v key = some u → u.aim = w.aim)
    (hfrom : ∀ a, valueFor v key = some (.address a) → ∃ u₀, valueFor v₀ key = some u₀) :
    Arrowed g (m :: past) k v key w b := by
  refine ⟨h.drawn, fun hu => haims _ hu, fun {lead a} hlead hu => ?_⟩
  obtain ⟨u₀, hu₀⟩ := hfrom a hu
  obtain ⟨a₀, rfl, hsame⟩ := Value.address_of_aim ((h.aims hu₀).trans (haims _ hu).symm)
  obtain ⟨first, hsince, hright⟩ := h.leads hlead hu₀
  refine ⟨first, .go ⟨c, v, a, hc, hv, hu, Memory.Address.same_refl a⟩ ?_, hright.congr hsame⟩
  exact hsince.congr fun m => Aimed.congr hsame

theorem Arrowed.truth {lead : Lead} (h : Arrowed g past k v key w b) (hlead : b.lead = some lead)
    (hu : valueFor v key = some u) :
    lead.Right m u ∨ ∃ a first, u = .address a ∧ Since (Aimed g k key a) past first ∧ lead.Right first u ∧
      (first.rootCell? (.heap a)).isSome ≠ (m.rootCell? (.heap a)).isSome := by
  obtain ⟨known, hshows⟩ := h.drawn
  have hdrawn := hshows.2 lead hlead
  have haims := h.aims hu
  cases u with
  | null =>
    cases Value.null_of_aim haims.symm
    cases hdrawn
    exact .inl rfl
  | address a =>
    obtain ⟨first, hsince, hright⟩ := h.leads hlead hu
    by_cases hsame : (first.rootCell? (.heap a)).isSome = (m.rootCell? (.heap a)).isSome
    · left
      rw [Lead.Right] at hright ⊢
      rwa [← hsame]
    · exact .inr ⟨a, first, rfl, hsince, hright, hsame⟩
  | _ =>
    rw [Value.aim_none (by simp) (by simp)] at haims
    exact .inl (leadOf_nothing haims.symm hdrawn)

end Arrowed

/-- What holds of the sprite under a key after some frames. -/
def Pointed (types : Types) : List Memory → Root → Sprite → Prop := Faced types (Arrowed types.graph)

section Frames

variable {f : Run.Frame} {before : Run.Situation} {frame : Frame} {past : List Memory}

theorem Pointed.upheld (hnamed : f.types.WellNamed) (hpast : past.headD {} = before.memory)
    (h : Follows f before frame) :
    Upheld f.types.graph before frame (Pointed f.types past) (Pointed f.types (frame.memory :: past)) := by
  refine Faced.upheld hnamed hpast h ?_ ?_ ?_ ?_
  · intro k c v known key u b hnew hc hv hu hb
    refine arrowed_drawn hu hb fun a lead hua _ => ?_
    obtain ⟨c₀, hc₀, -⟩ := h.address_from hnamed hc hv hua
    cases hnew.symm.trans hc₀
  · intro k c₀ c v₀ v known key u b w b₀ hchanged hc₀ hv₀ hc hv hknown hu hb hold hreason
    refine arrowed_drawn hu hb fun a lead hua hlead => ?_
    have hother : ¬Aimed f.types.graph k key a before.memory := by
      rintro ⟨c₁, v₁, a₀, hc₁, hv₁, hu₀, hsame⟩
      cases hc₀.symm.trans hc₁
      cases hv₀.symm.trans hv₁
      rcases hreason with rfl | hdiffers
      · cases hua
        cases hu₀
        rw [h.unchanged hc₀ hv₀ hc hv (Memory.Address.same_symm hsame)] at hchanged
        cases hchanged
      · obtain ⟨a₁, rfl, hsame₁⟩ := Value.address_of_aim (hold.aims hu₀).symm
        have hequal : (Value.address a).equal (.address a₁) = .ok true := by
          rw [Value.equal, Memory.Address.same_comm, Memory.Address.same_trans hsame₁ hsame]
        cases hu _ hua
        rw [differs, hequal] at hdiffers
        · cases hdiffers
        · simp
    refine ⟨frame.memory, .start ⟨c, v, a, hc, hv, hua, Memory.Address.same_refl a⟩ ?_, right_of_known ?_ hlead⟩
    · intro m hm haimed
      have hlast : m = before.memory := by rw [← hpast, List.headD_eq_head?_getD, Option.mem_def.1 hm]; rfl
      exact hother (hlast ▸ haimed)
    · rw [hknown]
      refine ⟨fun hkeys => hkeys.elim (fun hbefore => ?_) id, .inr⟩
      obtain ⟨c₁, hc₁, hfrom⟩ := h.address_from hnamed hc hv hua
      cases hc₀.symm.trans hc₁
      obtain ⟨u₀, hu₀, rfl | hblocks⟩ := hfrom v₀ hv₀
      · exact absurd ⟨c₀, v₀, a, hc₀, hv₀, hu₀, Memory.Address.same_refl a⟩ hother
      · exact hblocks a hbefore
  · intro k c₀ c v₀ v key w b hc₀ hv₀ hc hv hold hsame
    refine hold.goes hc hv (fun u hu => Value.aim_of_equal (equal_of_differs (hsame u hu))) fun a hu => ?_
    obtain ⟨c₁, hc₁, hfrom⟩ := h.address_from hnamed hc hv hu
    cases hc₀.symm.trans hc₁
    obtain ⟨u₀, hu₀, -⟩ := hfrom v₀ hv₀
    exact ⟨u₀, hu₀⟩
  · intro k c₀ c v₀ v key w b hsame hc₀ hv₀ hc hv hold
    have hparts {u : Value} (hu : valueFor v key = some u) :
        ∃ u₀, valueFor v₀ key = some u₀ ∧ u.aim = u₀.aim :=
      valueFor_sameAs (h.sameAs hsame hc₀ hv₀ hc hv) hu
    refine hold.goes hc hv (fun u hu => ?_) fun a hu => ?_
    · obtain ⟨u₀, hu₀, haim⟩ := hparts hu
      exact haim.trans (hold.aims hu₀)
    · obtain ⟨u₀, hu₀, -⟩ := hparts hu
      exact ⟨u₀, hu₀⟩

theorem Pointed.start {t : Theme} {b b' : Board} (hnamed : f.types.WellNamed)
    (hlawful : Lawful f.types frame.memory)
    (hcompares : Timeline.Compares f.types.graph {} frame.situation frame.diff) (hempty : b.sprites = [])
    (hrun : Board.start f.types.graph t frame b = (.ok (), b')) :
    b'.Depicts (keysOf frame.memory) (Pointed f.types [frame.memory]) := by
  refine Faced.start hnamed hlawful hcompares hempty hrun ?_ ?_
  · intro k c v known key u b hc hv hknown hu hb
    refine arrowed_drawn hu hb fun a lead hua hlead => ?_
    exact ⟨frame.memory, .start ⟨c, v, a, hc, hv, hua, Memory.Address.same_refl a⟩ (by simp),
      right_of_known (hknown a) hlead⟩
  · intro k c v known key w b _ _ hnone hb
    exact ⟨⟨known, hb⟩, (fun hu => by cases hnone.symm.trans hu), fun _ hu => by cases hnone.symm.trans hu⟩

end Frames

/-- A board whose arrows tell the truth about a memory, after all the memories of the past, or what was true
when the pointer came to hold its address: where since then the block at the address has come or gone, the
arrow is still the one drawn then. -/
structure Board.Points (b : Board) (g : Graph) (past : List Memory) (m : Memory) : Prop where
  keys (k : Root) : (b.sprite? k).isSome = (m.rootCell? k).isSome
  valued : m.Valued g
  outlines {k : Root} {c : Cell} {sprite : Sprite} (hc : m.rootCell? k = some c)
    (hsprite : b.sprite? k = some sprite) : sprite.outline = c.outline g ∨ c.undivided g = true ∨
      ∃ c₀, Stood k past c₀ ∧ c₀.type ≠ c.type
  arrows {k : Root} {c : Cell} {v : Value} {sprite : Sprite} (hc : m.rootCell? k = some c)
    (hv : c.value g = .ok v) (hsprite : b.sprite? k = some sprite) {key : Option Key} {box : Box} {lead : Lead}
    {u : Value} (hbox : (key, box) ∈ sprite.boxes) (hlead : box.lead = some lead)
    (hu : valueFor v key = some u) :
    lead.Right m u ∨ ∃ a first, u = .address a ∧ Since (Aimed g k key a) past first ∧ lead.Right first u ∧
      (first.rootCell? (.heap a)).isSome ≠ (m.rootCell? (.heap a)).isSome

theorem Board.Depicts.points {types : Types} {b : Board} {past : List Memory} {m : Memory}
    (h : b.Depicts (keysOf m) (Pointed types past)) (hpast : past.headD {} = m) (hlawful : Lawful types m)
    (hvalued : m.Valued types.graph) : b.Points types.graph past m := by
  refine ⟨h.keys, hvalued, fun {k c sprite} hc hk => ?_, fun hc hv hk key box lead u hbox hlead hu => ?_⟩
  · obtain ⟨v, hv⟩ := hvalued.root hc
    exact ((h.under hc hk).1.boxes hlawful hc hv).1
  · obtain ⟨w, harrowed⟩ := ((h.under hc hk).2 _ _ (hpast ▸ hc) hv).box hbox
    exact harrowed.truth hlead hu

/-- Arrows tell the truth as of the time when they were drawn. A program is read on what earlier programs of
the session saved, or on nothing, and is recorded while it runs. Then every picture of the show of this
timeline is that of a board after some of the first frames, and on a board after any of the frames each
pointer, be it a variable, an element or a field, has an arrow that tells whether it is null, leads to a
block or leads nowhere, as of when it came to hold its value. -/
theorem arrows_tell_truth_as_drawn {saved : Option Session.Saved} (hsaved : Session.Reached saved)
    {setting : Reading.Setting} {text : String} {p : Syntax.Program} {types : Types}
    (hopens : Session.Opens saved setting text p types) (limits : Types.Limits) (indexing : Bool)
    (looping : List Nat) (n : Nat) (theme : Theme) (marked : List Nat) (markedOnly : Bool) (stopAt : String) :
    let f : Run.Frame := ⟨types, limits, indexing⟩
    let memory := saved.map (·.memory)
    let run := Run.runProgram f (Timeline.recorder types.graph p) p memory.isSome n
      (.start memory looping #[])
    let script : Script := ⟨types.graph, theme, p.items.toArray, run.2.seen, marked, markedOnly, stopAt⟩
    let frames := run.2.seen.toList
    (∀ tick ∈ script.run.2.ticks, ∃ k b, script.Reaches k b ∧ tick.sprites = b.sprites) ∧
      ∀ i frame b, frames[i]? = some frame → script.Reaches (i + 1) b →
        b.Points types.graph ((frames.take (i + 1)).map (·.memory)).reverse frame.memory := by
  intro f memory run script frames
  obtain ⟨hready, hdeclared⟩ := hopens.ready hsaved.ready
  obtain ⟨opening, rest, hrecording⟩ :=
    Timeline.runProgram_recording (f := f) (p := p) hready.valued looping n
  have hseen : frames = opening ++ rest := hrecording.seen
  have hlinked := hrecording.linked hready.toFit hdeclared
  refine ⟨Script.run_fair (hrecording.order hopens.filled), fun i frame b hi hreaches => ?_⟩
  obtain ⟨hlawful, hvalued⟩ := hlinked.each frame (hseen ▸ List.mem_of_getElem? hi)
  have hdrawn := hrecording.depicts (D := fun _ => True) hready hdeclared trivial (fun _ _ => trivial)
    (fun frame b b' hlawful _ hcompares hempty hrun =>
      Pointed.start (f := f) hready.named hlawful hcompares hempty hrun)
    (fun past before frame hpast _ _ hfollows => Pointed.upheld hready.named hpast hfollows) rfl hi hreaches
  exact hdrawn.points (Timeline.last_memory hi) hlawful hvalued

def Sprite.leads (sprite : Sprite) : List (Option Lead) := sprite.boxes.map (·.2.lead)

/-- A second pointer to the block of a saved pair, which is then freed through the first. -/
def sharedPair : String := "var q: pointer of t\nq := p\nfree(p)\n"

theorem sharedPair_shown :
    Session.savesFrom keptPair (fun saved => Session.recordsOn saved sharedPair 9 fun p types seen =>
      let script : Script := ⟨types.graph, {}, p.items.toArray, seen, [], false, ""⟩
      seen.toList[3]?.isSome &&
        passes ((seen.toList.take 4).forM (Board.showFrame types.graph {})) script.board fun _ b =>
          b.sprites.map (·.2.leads) == [[some .nowhere], [some (.cell ⟨.heap, 0⟩)]]) = true := by
  decide +kernel

theorem sharedPair_points :
    ∃ saved p types, Session.Reached (some saved) ∧ Session.Opens (some saved) {} sharedPair p types ∧
      let run := Run.runProgram ⟨types, {}, true⟩ (Timeline.recorder types.graph p) p true 9
        (.start (some saved.memory) [] #[])
      let script : Script := ⟨types.graph, {}, p.items.toArray, run.2.seen, [], false, ""⟩
      let frames := run.2.seen.toList
      ∃ frame b, frames[3]? = some frame ∧ script.Reaches 4 b ∧
        b.sprites.map (·.2.leads) = [[some .nowhere], [some (.cell ⟨.heap, 0⟩)]] ∧
        b.Points types.graph ((frames.take 4).map (·.memory)).reverse frame.memory := by
  obtain ⟨saved, hreached, hshown⟩ := Session.of_savesFrom sharedPair_shown
  obtain ⟨p, types, hopens, hshown⟩ := Session.of_recordsOn hshown
  obtain ⟨hframe, hshown⟩ := Bool.and_eq_true_iff.1 hshown
  obtain ⟨frame, hframe⟩ := Option.isSome_iff_exists.1 hframe
  obtain ⟨_, b, hreaches, hleads⟩ := of_passes hshown
  obtain ⟨-, hpoints⟩ := arrows_tell_truth_as_drawn hreached hopens {} true [] 9 {} [] false ""
  exact ⟨saved, p, types, hreached, hopens, frame, b, hframe, hreaches, beq_iff_eq.1 hleads,
    hpoints 3 frame b hframe hreaches⟩

/-- A block with two pointers to it, freed through one of them. -/
def freedTwin : String := "var p: pointer of int\nvar q: pointer of int\nalloc(p)\nq := p\nfree(p)\n"

theorem freedTwin_shown :
    Session.recordsOn none freedTwin 9 (fun p types seen =>
      let script : Script := ⟨types.graph, {}, p.items.toArray, seen, [], false, ""⟩
      (seen.toList[4]?).any (fun frame => frame.memory.heap.isEmpty &&
        (frame.value? types.graph (.stack "q")).any fun v => v.aim == Value.aim (.address ⟨.heap, 0⟩)) &&
      passes ((seen.toList.take 5).forM (Board.showFrame types.graph {})) script.board fun _ b =>
        (b.sprite? (.stack "q")).any fun sprite => sprite.leads == [some (.cell ⟨.heap, 0⟩)]) = true := by
  decide +kernel

/-- An arrow to nothing: the other pointer still holds the address, there is no block any more, and its arrow
still leads to it. -/
theorem freedTwin_misleads :
    ∃ p types, Session.Opens none {} freedTwin p types ∧
      let run := Run.runProgram ⟨types, {}, true⟩ (Timeline.recorder types.graph p) p false 9
        (.start none [] #[])
      let script : Script := ⟨types.graph, {}, p.items.toArray, run.2.seen, [], false, ""⟩
      ∃ frame a b sprite, run.2.seen.toList[4]? = some frame ∧
        frame.value? types.graph (.stack "q") = some (.address a) ∧
        frame.memory.rootCell? (.heap a) = none ∧ script.Reaches 5 b ∧
        b.sprite? (.stack "q") = some sprite ∧ sprite.leads = [some (.cell ⟨.heap, 0⟩)] := by
  obtain ⟨p, types, hopens, hshown⟩ := Session.of_recordsOn freedTwin_shown
  simp only [Bool.and_eq_true, Option.any_eq_true, beq_iff_eq, List.isEmpty_iff] at hshown
  obtain ⟨⟨frame, hframe, hheap, v, hv, haim⟩, hshown⟩ := hshown
  obtain ⟨a, rfl, -⟩ := Value.address_of_aim haim
  obtain ⟨_, b, hreaches, hleads⟩ := of_passes hshown
  obtain ⟨sprite, hsprite, hleads⟩ := (Option.any_eq_true _ _).1 hleads
  have hnone : frame.memory.rootCell? (.heap a) = none := by
    rw [Memory.rootCell?, Memory.heapCell?, hheap]
    rfl
  exact ⟨p, types, hopens, frame, a, b, sprite, hframe, hv, hnone, hreaches, hsprite, beq_iff_eq.1 hleads⟩

end Chalkboard.Picture
