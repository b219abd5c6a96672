import Chalkboard.Proofs.Jumps

/-! The links of a program as they come about while it is put together, from the inside out. A block
links each of its sentences to the one behind it; a loop sends the last sentence of its body back to
itself; a branching passes whatever comes after it on to the last sentence of either branch, each time it
is told. At the end these are the links of the flow. -/

namespace Chalkboard.Syntax

open Run (items_length blockItems_length after_eq)

abbrev Links := Nat → Option Nat

def Links.set (l : Links) (place : Nat) (next : Option Nat) : Links :=
  fun q => if q = place then next else l q

mutual

def Sentence.point (start : Nat) (next : Option Nat) : Sentence → Links → Links
  | .branch _ yes no, l =>
    pointLast (start + 1 + extents yes) next no (pointLast (start + 1) next yes (l.set start next))
  | _, l => l.set start next

/-- Tells the last sentence of a block what comes after it. -/
def pointLast (start : Nat) (next : Option Nat) : List Sentence → Links → Links
  | [], l => l
  | s :: rest, l =>
    if rest.isEmpty then s.point start next l else pointLast (start + s.extent) next rest l

end

/-- Tells each sentence of a block, but the last, that the one behind it comes after it. -/
def chain (start : Nat) : List Sentence → Links → Links
  | [], l => l
  | s :: rest, l =>
    if rest.isEmpty then l
    else chain (start + s.extent) rest (s.point start (some (start + s.extent)) l)

mutual

/-- The links made when a sentence is put together. What comes after it is not known yet. -/
def Sentence.link (start : Nat) : Sentence → Links → Links
  | .branch _ yes no, l =>
    let noStart := start + 1 + extents yes
    let l := chain (start + 1) yes (linkEach (start + 1) yes l)
    let l := chain noStart no (linkEach noStart no l)
    pointLast noStart none no (pointLast (start + 1) none yes l)
  | .loop _ body, l =>
    pointLast (start + 1) (some start) body (chain (start + 1) body (linkEach (start + 1) body l))
  | .count _ _ _ _ body, l =>
    pointLast (start + 1) (some start) body (chain (start + 1) body (linkEach (start + 1) body l))
  | _, l => l

def linkEach (start : Nat) : List Sentence → Links → Links
  | [], l => l
  | s :: rest, l => linkEach (start + s.extent) rest (s.link start l)

end

/-- Tells each declaration what comes after it, if anything does. -/
def chainDeclarations (start : Nat) (more : Bool) : List Declaration → Links → Links
  | [], l => l
  | _ :: rest, l =>
    let l := if rest.isEmpty && !more then l else l.set start (some (start + 1))
    chainDeclarations (start + 1) more rest l

/-- The links of a whole program: the sentences are chained when they are read, and once more behind the
declarations. -/
def Program.links (p : Program) : Links :=
  let start := p.declarations.length
  let l := chain start p.sentences (linkEach start p.sentences fun _ => none)
  chain start p.sentences (chainDeclarations 0 (!p.sentences.isEmpty) p.declarations l)

/-- The links agree with a stretch of the flow. -/
def Agrees (l : Links) (start : Nat) (stretch : List Item) : Prop :=
  ∀ j < stretch.length, stretch[j]?.map (·.next) = some (l (start + j))

/-- Two tables of links are the same outside a stretch of places. -/
def SameOutside (start extent : Nat) (l l' : Links) : Prop :=
  ∀ q, q < start ∨ start + extent ≤ q → l' q = l q

namespace SameOutside

variable {a b start extent : Nat} {l l' l'' : Links}

theorem refl (start extent : Nat) (l : Links) : SameOutside start extent l l := fun _ _ => rfl

theorem trans (h : SameOutside start extent l l') (h' : SameOutside start extent l' l'') :
    SameOutside start extent l l'' := fun q hq => (h' q hq).trans (h q hq)

theorem widen (h : SameOutside start extent l l') (h₁ : a ≤ start) (h₂ : start + extent ≤ a + b) :
    SameOutside a b l l' := fun q hq => h q (by omega)

theorem set (l : Links) (place : Nat) (next : Option Nat) :
    SameOutside place 1 l (l.set place next) := fun q hq => if_neg (by omega)

end SameOutside

mutual

theorem point_frame (start : Nat) (next : Option Nat) :
    ∀ (s : Sentence) (l : Links), SameOutside start s.extent l (s.point start next l)
  | .skip _, l | .assign .., l | .call .., l => SameOutside.set l start next
  | .loop _ body, l | .count _ _ _ _ body, l => by
    simp only [Sentence.point, Sentence.extent]
    exact (SameOutside.set l start next).widen (by omega) (by omega)
  | .branch _ yes no, l => by
    simp only [Sentence.point, Sentence.extent]
    have h₁ := SameOutside.set l start next
    have h₂ := pointLast_frame (start + 1) next yes (l.set start next)
    have h₃ := pointLast_frame (start + 1 + extents yes) next no
      (pointLast (start + 1) next yes (l.set start next))
    exact ((h₁.widen (by omega) (by omega)).trans (h₂.widen (by omega) (by omega))).trans
      (h₃.widen (by omega) (by omega))

theorem pointLast_frame (start : Nat) (next : Option Nat) :
    ∀ (block : List Sentence) (l : Links),
      SameOutside start (extents block) l (pointLast start next block l)
  | [], l => SameOutside.refl _ _ l
  | s :: rest, l => by
    simp only [pointLast, extents]
    split
    · exact (point_frame start next s l).widen (by omega) (by omega)
    · exact (pointLast_frame (start + s.extent) next rest l).widen (by omega) (by omega)

end

theorem chain_frame (start : Nat) (block : List Sentence) (l : Links) :
    SameOutside start (extents block) l (chain start block l) := by
  induction block generalizing start l with
  | nil => exact SameOutside.refl _ _ l
  | cons s rest ih =>
    simp only [chain, extents]
    split
    · exact SameOutside.refl _ _ l
    · exact ((point_frame start _ s l).widen (by omega) (by omega)).trans
        ((ih _ _).widen (by omega) (by omega))

mutual

theorem link_frame (start : Nat) :
    ∀ (s : Sentence) (l : Links), SameOutside start s.extent l (s.link start l)
  | .skip _, l | .assign .., l | .call .., l => SameOutside.refl _ _ l
  | .loop _ body, l | .count _ _ _ _ body, l => by
    simp only [Sentence.link, Sentence.extent]
    have h := ((linkEach_frame (start + 1) body l).trans (chain_frame _ _ _)).trans
      (pointLast_frame _ (some start) _ _)
    exact h.widen (by omega) (by omega)
  | .branch _ yes no, l => by
    simp only [Sentence.link, Sentence.extent]
    have hyes := (linkEach_frame (start + 1) yes l).trans (chain_frame _ _ _)
    have hno (l : Links) := (linkEach_frame (start + 1 + extents yes) no l).trans (chain_frame _ _ _)
    refine ((hyes.widen (by omega) (by omega)).trans ((hno _).widen (by omega) (by omega))).trans ?_
    exact ((pointLast_frame _ _ _ _).widen (by omega) (by omega)).trans
      ((pointLast_frame _ _ _ _).widen (by omega) (by omega))

theorem linkEach_frame (start : Nat) :
    ∀ (block : List Sentence) (l : Links),
      SameOutside start (extents block) l (linkEach start block l)
  | [], l => SameOutside.refl _ _ l
  | s :: rest, l => by
    simp only [linkEach, extents]
    exact ((link_frame start s l).widen (by omega) (by omega)).trans
      ((linkEach_frame (start + s.extent) rest _).widen (by omega) (by omega))

end

namespace Agrees

variable {l l' : Links} {start a b : Nat} {item : Item} {st st' : List Item}

theorem nil : Agrees l start [] := fun _ hj => absurd hj (Nat.not_lt_zero _)

theorem cons_iff : Agrees l start (item :: st) ↔ l start = item.next ∧ Agrees l (start + 1) st := by
  constructor
  · intro h
    refine ⟨by simpa using (h 0 (by simp)).symm, fun j hj => ?_⟩
    simpa [Nat.add_assoc, Nat.add_comm 1 j] using h (j + 1) (by simpa using hj)
  · rintro ⟨h₀, h⟩ j hj
    cases j with
    | zero => simpa using h₀.symm
    | succ j => simpa [Nat.add_assoc, Nat.add_comm 1 j] using h j (by simpa using hj)

theorem append_iff :
    Agrees l start (st ++ st') ↔ Agrees l start st ∧ Agrees l (start + st.length) st' := by
  induction st generalizing start with
  | nil => simp [nil]
  | cons i st ih => simp [cons_iff, ih, and_assoc, Nat.add_assoc, Nat.add_comm 1]

theorem frame (h : Agrees l start st) (hs : SameOutside a b l l')
    (hd : start + st.length ≤ a ∨ a + b ≤ start) : Agrees l' start st := by
  intro j hj
  rw [h j hj, hs (start + j) (by omega)]

end Agrees

mutual

theorem point_agrees {start : Nat} {x y : Option Nat} {l : Links} :
    ∀ {s : Sentence}, Agrees l start (s.items start x) →
      Agrees (s.point start y l) start (s.items start y)
  | .skip _, _ | .assign .., _ | .call .., _ => by
    simp [Sentence.items, Sentence.point, Agrees.cons_iff, Agrees.nil, Links.set]
  | .loop _ body, h | .count _ _ _ _ body, h => by
    simp only [Sentence.items, Sentence.point, Agrees.cons_iff] at h ⊢
    exact ⟨if_pos rfl, h.2.frame (SameOutside.set l start y) (by omega)⟩
  | .branch _ yes no, h => by
    simp only [Sentence.items, Sentence.point, Agrees.cons_iff, Agrees.append_iff,
      blockItems_length] at h ⊢
    obtain ⟨-, hyes, hno⟩ := h
    have hframe (l : Links) := pointLast_frame (start + 1) y yes l
    have hframe' (l : Links) := pointLast_frame (start + 1 + extents yes) y no l
    have hset := SameOutside.set l start y
    have hyes := pointLast_agrees (y := y) (hyes.frame hset (by omega))
    have hno := pointLast_agrees (y := y)
      ((hno.frame hset (by omega)).frame (hframe _) (by omega))
    refine ⟨?_, hyes.frame (hframe' _) (by simp [blockItems_length]), hno⟩
    rw [hframe' _ start (by omega), hframe _ start (by omega)]
    exact if_pos rfl

theorem pointLast_agrees {start : Nat} {x y : Option Nat} {l : Links} :
    ∀ {block : List Sentence}, Agrees l start (blockItems start x block) →
      Agrees (pointLast start y block l) start (blockItems start y block)
  | [], _ => Agrees.nil
  | s :: rest, h => by
    simp only [blockItems, pointLast, Agrees.append_iff, items_length] at h ⊢
    cases rest with
    | nil => exact ⟨point_agrees h.1, Agrees.nil⟩
    | cons t rest =>
      have hframe := pointLast_frame (start + s.extent) y (t :: rest) l
      exact ⟨h.1.frame hframe (by simp [items_length]), pointLast_agrees h.2⟩

end

/-- Every sentence of a block agrees with the flow, whatever is said to come after it; `x` is said to
come after the last. -/
def EachAgrees (l : Links) (x : Option Nat) : Nat → List Sentence → Prop
  | _, [] => True
  | start, s :: rest =>
    (∃ y, Agrees l start (s.items start y) ∧ (rest = [] → y = x)) ∧
      EachAgrees l x (start + s.extent) rest

variable {a b extent start : Nat} {block : List Sentence} {l l' : Links} {x : Option Nat}

theorem EachAgrees.frame (hs : SameOutside a b l l') :
    ∀ {block : List Sentence} {start : Nat}, a + b ≤ start → EachAgrees l x start block →
      EachAgrees l' x start block
  | [], _, _, _ => trivial
  | s :: rest, start, hd, h => by
    obtain ⟨⟨y, hy, hx⟩, hrest⟩ := h
    exact ⟨⟨y, hy.frame hs (.inr hd), hx⟩, hrest.frame hs (by omega)⟩

theorem eachAgrees_of_agrees
    (h : Agrees l start (blockItems start x block)) : EachAgrees l x start block := by
  induction block generalizing start with
  | nil => trivial
  | cons s rest ih =>
    simp only [blockItems, Agrees.append_iff, items_length] at h
    refine ⟨⟨_, h.1, ?_⟩, ih h.2⟩
    rintro rfl
    rfl

theorem chain_agrees
    (h : EachAgrees l x start block) : Agrees (chain start block l) start (blockItems start x block) := by
  induction block generalizing start l with
  | nil => exact Agrees.nil
  | cons s rest ih =>
    obtain ⟨⟨y, hy, hx⟩, hrest⟩ := h
    simp only [blockItems, chain, Agrees.append_iff, items_length]
    cases rest with
    | nil => exact ⟨hx rfl ▸ hy, Agrees.nil⟩
    | cons t rest =>
      have hpoint := point_frame start (some (start + s.extent)) s l
      have hchain := chain_frame (start + s.extent) (t :: rest)
        (s.point start (some (start + s.extent)) l)
      exact ⟨(point_agrees hy).frame hchain (by simp [items_length]),
        ih (hrest.frame hpoint (Nat.le_refl _))⟩

/-- Nothing is said yet about a stretch of places. -/
def Open (l : Links) (start extent : Nat) : Prop := ∀ q, start ≤ q → q < start + extent → l q = none

theorem Open.sub {start' extent' : Nat} (h : Open l start extent)
    (h₁ : start ≤ start') (h₂ : start' + extent' ≤ start + extent) : Open l start' extent' :=
  fun q hq hq' => h q (by omega) (by omega)

theorem Open.frame (h : Open l start extent)
    (hs : SameOutside a b l l') (hd : start + extent ≤ a ∨ a + b ≤ start) : Open l' start extent := by
  intro q hq hq'
  rw [hs q (by omega), h q hq hq']

mutual

theorem link_agrees {start : Nat} :
    ∀ {s : Sentence} {l : Links}, Open l start s.extent →
      Agrees (s.link start l) start (s.items start none)
  | .skip _, l, h | .assign .., l, h | .call .., l, h => by
    simpa [Sentence.items, Sentence.link, Agrees.cons_iff, Agrees.nil] using
      h start (by omega) (by simp [Sentence.extent])
  | .loop _ body, l, h | .count _ _ _ _ body, l, h => by
    simp only [Sentence.extent] at h
    simp only [Sentence.items, Sentence.link, Agrees.cons_iff]
    have hopen : Open l (start + 1) (extents body) := h.sub (by omega) (by omega)
    have hbody := chain_agrees (linkEach_agrees hopen)
    have hframe := ((linkEach_frame (start + 1) body l).trans (chain_frame _ _ _)).trans
      (pointLast_frame _ (some start) _ _)
    refine ⟨?_, pointLast_agrees hbody⟩
    rw [hframe start (by omega), h start (by omega) (by omega)]
  | .branch _ yes no, l, h => by
    simp only [Sentence.extent] at h
    simp only [Sentence.items, Sentence.link, Agrees.cons_iff, Agrees.append_iff, blockItems_length]
    have hyesFrame := (linkEach_frame (start + 1) yes l).trans (chain_frame _ _ _)
    have hnoFrame (l : Links) :=
      (linkEach_frame (start + 1 + extents yes) no l).trans (chain_frame _ _ _)
    have hopen : Open l (start + 1) (extents yes) := h.sub (by omega) (by omega)
    have hopen' : Open l (start + 1 + extents yes) (extents no) := h.sub (by omega) (by omega)
    have hyes := chain_agrees (linkEach_agrees hopen)
    have hno := chain_agrees (linkEach_agrees (hopen'.frame hyesFrame (by omega)))
    have hyes := pointLast_agrees (y := none)
      (hyes.frame (hnoFrame _) (by simp [blockItems_length]))
    have hlast (l : Links) := pointLast_frame (start + 1) none yes l
    have hlast' (l : Links) := pointLast_frame (start + 1 + extents yes) none no l
    have hno := pointLast_agrees (y := none) (hno.frame (hlast _) (by omega))
    refine ⟨?_, hyes.frame (hlast' _) (by simp [blockItems_length]), hno⟩
    rw [hlast' _ start (by omega), hlast _ start (by omega), hnoFrame _ start (by omega),
      hyesFrame start (by omega), h start (by omega) (by omega)]

theorem linkEach_agrees {start : Nat} :
    ∀ {block : List Sentence} {l : Links}, Open l start (extents block) →
      EachAgrees (linkEach start block l) none start block
  | [], _, _ => trivial
  | s :: rest, l, h => by
    simp only [extents] at h
    have hopen : Open l start s.extent := h.sub (by omega) (by omega)
    have hopen' : Open l (start + s.extent) (extents rest) := h.sub (by omega) (by omega)
    have hframe := linkEach_frame (start + s.extent) rest (s.link start l)
    exact ⟨⟨none, (link_agrees hopen).frame hframe (by simp [items_length]), fun _ => rfl⟩,
      linkEach_agrees (hopen'.frame (link_frame start s l) (by omega))⟩

end

theorem chainDeclarations_frame (more : Bool) (ds : List Declaration) (start : Nat) (l : Links) :
    SameOutside start ds.length l (chainDeclarations start more ds l) := by
  induction ds generalizing start l with
  | nil => exact SameOutside.refl _ _ l
  | cons d rest ih =>
    simp only [chainDeclarations, List.length_cons]
    refine SameOutside.trans ?_ ((ih (start + 1) _).widen (by omega) (by omega))
    split
    · exact SameOutside.refl _ _ l
    · exact (SameOutside.set l start _).widen (by omega) (by omega)

theorem chainDeclarations_agrees (more : Bool) (ds : List Declaration) (start : Nat) (l : Links)
    (h : Open l start ds.length) :
    Agrees (chainDeclarations start more ds l) start (declarationItems start more ds) := by
  induction ds generalizing start l with
  | nil => exact Agrees.nil
  | cons d rest ih =>
    simp only [chainDeclarations, declarationItems, Agrees.cons_iff]
    have hframe (l : Links) := chainDeclarations_frame more rest (start + 1) l
    have hopen : Open l (start + 1) rest.length := h.sub (by omega) (by simp; omega)
    rw [hframe _ start (by omega)]
    split
    · exact ⟨h start (by omega) (by simp), ih _ _ hopen⟩
    · exact ⟨if_pos rfl, ih _ _ (hopen.frame (SameOutside.set l start _) (by omega))⟩

theorem links_eq_next (p : Program) {place : Nat} {item : Item} (h : p.items[place]? = some item) :
    p.links place = item.next := by
  have hopen (start extent : Nat) : Open (fun _ => none) start extent := fun _ _ _ => rfl
  have hread := chain_agrees (linkEach_agrees (hopen p.declarations.length (extents p.sentences)))
  have hframe := (linkEach_frame p.declarations.length p.sentences fun _ => none).trans
    (chain_frame _ _ _)
  have hdecl := chainDeclarations_agrees (!p.sentences.isEmpty) p.declarations 0 _
    ((hopen 0 _).frame hframe (by omega))
  have hsent := hread.frame
    (chainDeclarations_frame (!p.sentences.isEmpty) p.declarations 0 _) (by omega)
  have hsent := chain_agrees (eachAgrees_of_agrees hsent)
  have hchain (l : Links) := chain_frame p.declarations.length p.sentences l
  have hdecl := hdecl.frame (hchain _) (by simp [Run.declarationItems_length])
  have hall : Agrees p.links 0 p.items := by
    rw [Program.items, Agrees.append_iff, Run.declarationItems_length, Nat.zero_add]
    exact ⟨hdecl, hsent⟩
  have hj := hall place (List.getElem?_eq_some_iff.1 h).1
  rw [h, Nat.zero_add] at hj
  simpa using hj.symm

end Chalkboard.Syntax
