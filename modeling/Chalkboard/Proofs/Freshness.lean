import Chalkboard.Proofs.Dangling
import Chalkboard.Proofs.Ledger
import Chalkboard.Proofs.ReadTypes

/-! Whether addresses are reused. A block is stored where the blocks before it end, and addresses are
told apart by the keys of their numbers, so two blocks get the same address exactly when the room from
one to the other is a multiple of the prime; blocks without room are the case that occurs. As long as no
address is reused, no block replaces another, and an address that was removed leads nowhere. -/

namespace Chalkboard.Run

open Effects
open Reading (readProgram)
open Memory (Address Cell Location keyPrime)

/-- No block is stored at an address at which one was stored before. -/
def Fresh (h : History) : Prop := h.addresses.Pairwise fun a b => a.same b = false

/-- No stretch of blocks with another block behind it takes room that is a multiple of the prime, or no
room at all. -/
def Spread (blocks : List (Address × Int)) : Prop :=
  ∀ before stretch after, blocks = before ++ stretch ++ after → stretch ≠ [] → after ≠ [] →
    ¬keyPrime ∣ totalRoom stretch

/-- The addresses that were stored and not removed since. -/
def History.live (h : History) : List Address :=
  h.foldl (fun live event => match event with
    | .stored a _ => live ++ [a]
    | .removed a => live.filter fun b => !b.same a) []

section Spread

variable {start : Int} {blocks : List (Address × Int)}

theorem totalRoom_nonneg (hrooms : ∀ b ∈ blocks, 0 ≤ b.2) : 0 ≤ totalRoom blocks := by
  induction blocks with
  | nil => exact Int.le_refl 0
  | cons block rest ih =>
    have := hrooms block List.mem_cons_self
    have := ih fun b hb => hrooms b (List.mem_cons_of_mem _ hb)
    rw [totalRoom]
    omega

theorem totalRoom_pos (hrooms : ∀ b ∈ blocks, 0 < b.2) (hne : blocks ≠ []) : 0 < totalRoom blocks := by
  cases blocks with
  | nil => exact absurd rfl hne
  | cons block rest =>
    have := hrooms block List.mem_cons_self
    have := totalRoom_nonneg fun b hb => Int.le_of_lt (hrooms b (List.mem_cons_of_mem block hb))
    rw [totalRoom]
    omega

theorem Stacked.same_iff {block other : Address × Int} {stretch rest : List (Address × Int)}
    (hstart : 0 ≤ start) (hrooms : ∀ b ∈ block :: stretch, 0 ≤ b.2)
    (h : Stacked start (block :: stretch ++ other :: rest)) :
    block.1.same other.1 = true ↔ keyPrime ∣ totalRoom (block :: stretch) := by
  obtain ⟨hblock, hother⟩ := stacked_append.1 h
  have hroom := totalRoom_nonneg hrooms
  rw [hblock.1, hother.1, Memory.same_heap_iff hstart (Int.add_nonneg hstart hroom)]
  rw [show start + totalRoom (block :: stretch) - start = totalRoom (block :: stretch) by omega]

theorem Stacked.spread (hstart : 0 ≤ start) (hrooms : ∀ b ∈ blocks, 0 ≤ b.2) (h : Stacked start blocks)
    (hapart : blocks.Pairwise fun x y => x.1.same y.1 = false) : Spread blocks := by
  rintro before (_ | ⟨block, stretch⟩) (_ | ⟨other, rest⟩) rfl hstretch hafter
  · exact absurd rfl hstretch
  · exact absurd rfl hstretch
  · exact absurd rfl hafter
  · rw [List.append_assoc] at h hapart hrooms
    have hbefore : 0 ≤ start + totalRoom before :=
      Int.add_nonneg hstart (totalRoom_nonneg fun b hb => hrooms b (List.mem_append_left _ hb))
    rw [← (stacked_append.1 h).2.same_iff hbefore fun b hb =>
      hrooms b (List.mem_append_right _ (List.mem_append_left _ hb))]
    have hrest := (List.pairwise_append.1 hapart).2.1
    have := (List.pairwise_append.1 hrest).2.2 block List.mem_cons_self other List.mem_cons_self
    simp [this]

theorem Stacked.apart (hstart : 0 ≤ start) (hrooms : ∀ b ∈ blocks, 0 ≤ b.2) (h : Stacked start blocks)
    (hspread : Spread blocks) : blocks.Pairwise fun x y => x.1.same y.1 = false := by
  induction blocks generalizing start with
  | nil => exact .nil
  | cons block rest ih =>
    have hrooms' : ∀ b ∈ rest, 0 ≤ b.2 := fun b hb => hrooms b (List.mem_cons_of_mem _ hb)
    refine .cons (fun other hother => ?_) (ih ?_ hrooms' h.2 ?_)
    · -- the stretch from the first block to another one takes no multiple of the prime
      obtain ⟨stretch, after, rfl⟩ := List.append_of_mem hother
      rw [← Bool.not_eq_true, Stacked.same_iff hstart ?_ h]
      · exact hspread [] (block :: stretch) (other :: after) rfl (List.cons_ne_nil _ _)
          (List.cons_ne_nil _ _)
      · intro b hb
        exact hrooms b (List.mem_append_left _ hb)
    · exact Int.add_nonneg hstart (hrooms block List.mem_cons_self)
    · rintro before stretch after rfl
      exact hspread (block :: before) stretch after rfl

theorem Orderly.fresh_iff {h : History} (horder : Orderly h) : Fresh h ↔ Spread h.blocks := by
  rw [Fresh, History.addresses, List.pairwise_map]
  have hzero : (0 : Int) ≤ 0 := Int.le_refl 0
  exact ⟨horder.stacked.spread hzero horder.rooms, horder.stacked.apart hzero horder.rooms⟩

theorem spread_of_pos (hrooms : ∀ b ∈ blocks, 0 < b.2) (hsum : totalRoom blocks ≤ keyPrime) :
    Spread blocks := by
  rintro before stretch after rfl hstretch hafter hdvd
  simp only [List.forall_mem_append] at hrooms
  have hbefore := totalRoom_nonneg fun b hb => Int.le_of_lt (hrooms.1.1 b hb)
  have hpos := totalRoom_pos hrooms.1.2 hstretch
  have hlast := totalRoom_pos hrooms.2 hafter
  have hle := Int.le_of_dvd hpos hdvd
  rw [totalRoom_append, totalRoom_append] at hsum
  omega

end Spread

section Live

variable {h : History} {a b : Address} {room : Int}

theorem live_stored : History.live (h ++ [.stored a room]) = h.live ++ [a] := by
  rw [History.live, List.foldl_append]
  rfl

theorem live_removed : History.live (h ++ [.removed a]) = h.live.filter fun b => !b.same a := by
  rw [History.live, List.foldl_append]
  rfl

theorem fresh_stored :
    Fresh (h ++ [.stored a room]) ↔ Fresh h ∧ ∀ b ∈ h.addresses, b.same a = false := by
  rw [Fresh, addresses_stored, List.pairwise_append]
  simp [Fresh]

theorem fresh_removed : Fresh (h ++ [.removed a]) ↔ Fresh h := by
  rw [Fresh, addresses_removed]
  rfl

theorem Rooted.mem (rooted : Rooted h) (hmem : Event.removed a ∈ h) :
    ∃ b ∈ h.addresses, b.same a = true := by
  induction rooted with
  | nil => cases hmem
  | stored _ _ _ ih =>
    rcases List.mem_append.1 hmem with hold | hnew
    · obtain ⟨b, hb, hsame⟩ := ih hold
      rw [addresses_stored]
      exact ⟨b, List.mem_append_left _ hb, hsame⟩
    · cases List.mem_singleton.1 hnew
  | removed hb hsame _ ih =>
    rw [addresses_removed]
    rcases List.mem_append.1 hmem with hold | hnew
    · exact ih hold
    · cases List.mem_singleton.1 hnew
      exact ⟨_, hb, hsame⟩

theorem Rooted.not_live (rooted : Rooted h) (fresh : Fresh h) (hmem : Event.removed a ∈ h)
    (hb : b ∈ h.live) : b.same a = false := by
  induction rooted with
  | nil => cases hmem
  | stored a' room rooted ih =>
    obtain ⟨fresh, hnew⟩ := fresh_stored.1 fresh
    have hold : Event.removed a ∈ _ := (List.mem_append.1 hmem).resolve_right (by simp)
    rw [live_stored] at hb
    rcases List.mem_append.1 hb with hb | hb
    · exact ih fresh hold hb
    · -- the removed address was stored earlier, so the new one differs from it
      obtain ⟨c, hc, hsame⟩ := rooted.mem hold
      rw [List.mem_singleton.1 hb, ← Bool.not_eq_true]
      intro hback
      have := Address.same_trans hsame (Address.same_symm hback)
      rw [hnew c hc] at this
      cases this
  | removed _ _ _ ih =>
    rw [live_removed] at hb
    obtain ⟨hlive, hother⟩ := List.mem_filter.1 hb
    rcases List.mem_append.1 hmem with hold | hnew
    · exact ih (fresh_removed.1 fresh) hold hlive
    · cases List.mem_singleton.1 hnew
      simpa using hother

end Live

/-- What a run keeps as long as addresses are fresh, and where every type takes room. -/
structure Tidy (g : Types.Graph) (m : Memory) (h : History) : Prop where
  keys (fresh : Fresh h) : m.heap.map (·.1) = h.live
  roomy (hg : g.Roomy) : ∀ block ∈ h.blocks, 0 < block.2

theorem tidy_start (g : Types.Graph) : Tidy g {} [] := ⟨fun _ => rfl, fun _ _ hblock => by cases hblock⟩

section Turns

variable {f : Frame} {g : Types.Graph} {m m' : Memory} {h : History}

theorem Tidy.of_keys (tidy : Tidy g m h) (hkeys : m'.heap.map (·.1) = m.heap.map (·.1)) : Tidy g m' h :=
  ⟨fun fresh => hkeys.trans (tidy.keys fresh), tidy.roomy⟩

theorem Tidy.enter (tidy : Tidy g m h) (hkeys : ∀ b ∈ m.heap.map (·.1), b ∈ h.addresses)
    {a : Address} {block : Cell} (hlaid : Memory.Laid g .heap a.number block)
    (haddress : block.address = .ok a) :
    Tidy g { m with heap := Memory.enter a block m.heap } (h ++ [.stored a (block.room g)]) where
  keys fresh := by
    obtain ⟨fresh, hnew⟩ := fresh_stored.1 fresh
    have hnone : m.heap.any (·.1.same a) = false := by
      rw [List.any_eq_false]
      intro entry hentry
      simp [hnew entry.1 (hkeys entry.1 (List.mem_map_of_mem hentry))]
    rw [Memory.enter_keys, hnone, live_stored, tidy.keys fresh]
    rfl
  roomy hg b hb := by
    rw [blocks_stored] at hb
    rcases List.mem_append.1 hb with hold | hnew
    · exact tidy.roomy hg b hold
    · rw [List.mem_singleton.1 hnew]
      exact hlaid.roomy hg haddress

theorem Tidy.erase (tidy : Tidy g m h) (a : Address) : Tidy g (m.erase a) (h ++ [.removed a]) where
  keys fresh := by rw [Memory.erase_keys, tidy.keys (fresh_removed.1 fresh), live_removed]
  roomy hg := by
    rw [blocks_removed]
    exact tidy.roomy hg

theorem Tidy.turn (tidy : Tidy f.types.graph m h) (hkept : Kept m h) {events : History}
    (hturn : Turn f m events m') : Tidy f.types.graph m' (h ++ events) := by
  cases hturn with
  | still =>
    rw [List.append_nil]
    exact tidy
  | moved n | declared hnew hlaid =>
    rw [List.append_nil]
    exact tidy.of_keys rfl
  | wrote hat hfits hheld =>
    rw [List.append_nil]
    exact tidy.of_keys Memory.write_keys
  | stored hat hclosure hnode hlaid haddress hm' =>
    rename_i m₁
    have hkeys : m₁.heap.map (·.1) = m.heap.map (·.1) := by
      rw [hm', Memory.write_keys]
      rfl
    exact (tidy.of_keys hkeys).enter (fun b hb => hkept.keys (hkeys ▸ hb)) hlaid haddress
  | removed hat hpointer hblock => exact (tidy.erase _).of_keys Memory.write_keys

end Turns

/-- A program that was read, after any number of steps on a new memory. No address is reused exactly
when the blocks that were stored are spread, and so none is where every synonym takes room and the blocks
fill no more than the prime. As long as none is reused, the heap holds just the blocks that were stored
and not removed since, in order, and a variable that still leads to an address that was removed leads
nowhere: every dereference of it fails and so does freeing it. -/
theorem addresses_fresh_iff_spread {setting : Reading.Setting} {text : String} {p : Syntax.Program}
    {types : Types} (hread : (readProgram setting text).run {} = (.ok p, types))
    (limits : Types.Limits) (indexing : Bool) (n : Nat) :
    let f : Frame := ⟨types, limits, indexing⟩
    let c := (chronicle f p n).2
    let m := c.situation.memory
    (Fresh c.seen ↔ Spread c.seen.blocks) ∧
      (types.graph.Roomy → totalRoom c.seen.blocks ≤ keyPrime → Fresh c.seen) ∧
      (Fresh c.seen → m.heap.map (·.1) = c.seen.live ∧
        ∀ a, .removed a ∈ c.seen → ∀ v place b t,
          locate (f.env m) m v = .ok (place, .leaf b t (.address a)) → Dangles f m v t a) := by
  intro f c m
  obtain ⟨hkept, tidy⟩ : Kept m c.seen ∧ Tidy types.graph m c.seen :=
    chronicle_kept (Reading.readProgram_sound hread).graph (tidy_start _)
      (fun m h events m' hkept tidy hturn => tidy.turn hkept hturn) (fun m h n tidy => tidy.of_keys rfl) p n
  have hiff := hkept.toOrderly.fresh_iff
  refine ⟨hiff, fun hroomy hsum => ?_, fun fresh => ⟨tidy.keys fresh, ?_⟩⟩
  · exact hiff.2 (spread_of_pos (tidy.roomy hroomy) hsum)
  · intro a hremoved v place b t hlocate
    refine dangles (Memory.heapCell?_eq_none fun key hkey => ?_) hlocate
    rw [tidy.keys fresh] at hkey
    exact hkept.rooted.not_live fresh hremoved hkey

/-- A block is freed through one of two pointers to it, and another is allocated. -/
def sharedBlock : String :=
  "var p: pointer of int\nvar q: pointer of int\nalloc(p)\nq := p\nfree(p)\nalloc(p)\n"

def sharer : Syntax.Variable := ⟨⟨"q", 1⟩, []⟩

theorem sharedBlock_end :
    passes (readProgram {} sharedBlock) {} (fun p types =>
      let c := (chronicle ⟨types, {}, true⟩ p 6).2
      let m := c.situation.memory
      c.seen == [.stored ⟨.heap, 0⟩ 1, .removed ⟨.heap, 0⟩, .stored ⟨.heap, 1⟩ 1] &&
        match locate (Frame.env ⟨types, {}, true⟩ m) m sharer with
        | .ok (_, .leaf _ t (.address a)) => a == ⟨.heap, 0⟩ && types.graph.isPointer t
        | _ => false) = true := by
  decide +kernel

theorem sharedBlock_dangles :
    ∃ p types, (readProgram {} sharedBlock).run {} = (.ok p, types) ∧
      let f : Frame := ⟨types, {}, true⟩
      let m := (chronicle f p 6).2.situation.memory
      m.heap.map (·.1) = [⟨.heap, 1⟩] ∧
        evalExpr (f.env m) (through sharer []).toExpr =
          .error (.memory (.dangling (through sharer []).text (⟨.heap, 0⟩ : Address).text)) ∧
        free f sharer m =
          (.error (.memory (.freeDangling sharer.text (⟨.heap, 0⟩ : Address).text)), m) := by
  obtain ⟨p, types, hread, hcheck⟩ := of_passes sharedBlock_end
  obtain ⟨hseen, hcell⟩ := Bool.and_eq_true_iff.1 hcheck
  refine ⟨p, types, hread, ?_⟩
  split at hcell
  · rename_i place b t a hlocate
    obtain ⟨ha, hpointer⟩ := Bool.and_eq_true_iff.1 hcell
    obtain rfl := eq_of_beq ha
    have hall := (addresses_fresh_iff_spread hread {} true 6).2.2
    rw [eq_of_beq hseen] at hall
    obtain ⟨hkeys, hdangles⟩ := hall (by unfold Fresh; decide)
    have hq := hdangles ⟨.heap, 0⟩ (by simp) sharer place b t hlocate
    refine ⟨hkeys, (hq.evaluated []).trans ?_, hq.freed.trans ?_⟩
    · rw [followFault, if_pos hpointer]
    · rw [freeFault, if_pos hpointer]
  · cases hcell

/-- Two pointers to tuples whose only field is a synonym of an array without elements. -/
def emptyTuples : String :=
  "type e = array [0] of int\ntype t = tuple\n f: e\nend tuple\n" ++
  "var p: pointer of t\nvar q: pointer of t\nalloc(p)\nalloc(q)\n"

/-- The second block is stored at the address of the first and takes its place. -/
theorem emptyTuples_share_address :
    ∃ p types, (readProgram {} emptyTuples).run {} = (.ok p, types) ∧
      let c := (chronicle ⟨types, {}, true⟩ p 4).2
      c.seen = [.stored ⟨.heap, 0⟩ 0, .stored ⟨.heap, 0⟩ 0] ∧ ¬Fresh c.seen ∧
        c.situation.memory.heap.map (·.1) = [⟨.heap, 0⟩] := by
  have hend : passes (readProgram {} emptyTuples) {} (fun p types =>
      let c := (chronicle ⟨types, {}, true⟩ p 4).2
      c.seen == [.stored ⟨.heap, 0⟩ 0, .stored ⟨.heap, 0⟩ 0] &&
        c.situation.memory.heap.map (·.1) == [⟨.heap, 0⟩]) = true := by
    decide +kernel
  obtain ⟨p, types, hread, hcheck⟩ := of_passes hend
  obtain ⟨hseen, hkeys⟩ := Bool.and_eq_true_iff.1 hcheck
  refine ⟨p, types, hread, eq_of_beq hseen, ?_, eq_of_beq hkeys⟩
  rw [eq_of_beq hseen]
  unfold Fresh
  decide

end Chalkboard.Run
