import Chalkboard.Proofs.Places
import Chalkboard.Run.Store

/-! What expressions and variables give access to: a variable leads to a cell that stands in memory where
it says, and an address that is the value of an expression is held by some leaf. No operator and no
literal makes an address. -/

namespace Chalkboard.Value

def Inert (v : Value) : Prop := ∀ a, v ≠ .address a

/-- A value that need not come from anywhere: no address, no constant and no text. -/
def Sourceless : Value → Prop
  | int _ | real _ | bool _ | null | lazy _ | unknown => True
  | _ => False

def IsText (v : Value) : Prop := ∃ s, v = text s

section Operators

variable {a b v : Value}

theorem arithmetic_result {P : Value → Prop} {onWhole : Int → Int → Except Misuse Value}
    {onReal : Float → Float → Except Misuse Value} (hwhole : ∀ i j v, onWhole i j = .ok v → P v)
    (hreal : ∀ x y v, onReal x y = .ok v → P v) (h : arithmetic onWhole onReal a b = .ok v) : P v := by
  unfold arithmetic at h
  split at h
  · exact hwhole _ _ _ h
  · rename_i m n _ _ _
    rcases hx : toReal m with _ | x
    · rw [hx] at h
      cases h
    · rcases hy : toReal n with _ | y
      · rw [hx, hy] at h
        cases h
      · rw [hx, hy] at h
        exact hreal x y v h
  · cases h

theorem arithmetic_total_sourceless {f : Int → Int → Int} {g : Float → Float → Float}
    (h : arithmetic (fun i j => .ok (int (f i j))) (fun x y => .ok (real (g x y))) a b = .ok v) :
    v.Sourceless := by
  refine arithmetic_result (fun i j v hv => ?_) (fun x y v hv => ?_) h
  · cases hv
    trivial
  · cases hv
    trivial

/-- The result of an operator: a text is made from a text. -/
def Made (a b v : Value) : Prop := v.Sourceless ∨ v.IsText ∧ (a.IsText ∨ b.IsText)

theorem Sourceless.inert (h : v.Sourceless) : v.Inert := by
  rintro p rfl
  exact h

theorem Made.inert (h : Made a b v) : v.Inert := by
  rcases h with hplain | ⟨⟨s, rfl⟩, -⟩
  · exact hplain.inert
  · rintro p hp
    cases hp

theorem add_made (h : a.add b = .ok v) : Made a b v := by
  unfold add at h
  split at h
  · cases h
    exact .inr ⟨⟨_, rfl⟩, .inl ⟨_, rfl⟩⟩
  · exact .inl (arithmetic_total_sourceless h)

theorem sub_sourceless (h : a.sub b = .ok v) : v.Sourceless := arithmetic_total_sourceless h

theorem counted_sourceless {up : Bool} (h : (if up then a.add (.int 1) else a.sub (.int 1)) = .ok v) :
    v.Sourceless := by
  split at h
  · rcases add_made h with hplain | ⟨-, ⟨s, rfl⟩ | ⟨s, hs⟩⟩
    · exact hplain
    · cases h
    · cases hs
  · exact sub_sourceless h

theorem replicate_text {s : String} {n : Int} (h : replicate s n = .ok v) : v.IsText := by
  unfold replicate at h
  dsimp only at h
  split at h
  · cases h
  split at h
  · cases h
  split at h
  · cases h
  · cases h
    exact ⟨_, rfl⟩

theorem mul_made (h : a.mul b = .ok v) : Made a b v := by
  unfold mul at h
  split at h
  · exact .inr ⟨replicate_text h, .inl ⟨_, rfl⟩⟩
  · exact .inr ⟨replicate_text h, .inr ⟨_, rfl⟩⟩
  · exact .inl (arithmetic_total_sourceless h)

theorem divide_sourceless (h : a.divide b = .ok v) : v.Sourceless := by
  refine arithmetic_result (fun i j v hv => ?_) (fun x y v hv => ?_) h
  · split at hv
    · cases hv
    · rcases hq : Number.quotient? i j with _ | q
      · rw [hq] at hv
        cases hv
      · rw [hq] at hv
        cases hv
        trivial
  · split at hv
    · cases hv
    · cases hv
      trivial

theorem remainder_made (h : a.remainder b = .ok v) : Made a b v := by
  unfold remainder at h
  split at h
  · rename_i s
    rcases hformat : formatted s b with _ | w
    · rw [hformat] at h
      cases h
    · rw [hformat] at h
      cases h
      exact .inr ⟨⟨_, rfl⟩, .inl ⟨_, rfl⟩⟩
  · refine .inl (arithmetic_result (fun i j v hv => ?_) (fun x y v hv => ?_) h)
    · split at hv
      · cases hv
      · cases hv
        trivial
    · split at hv
      · cases hv
      · cases hv
        trivial

theorem sourceless_of_map {ε : Type} {r : Except ε Bool} {f : Bool → Bool}
    (h : r.map (fun x => bool (f x)) = .ok v) : v.Sourceless := by
  cases r with
  | error e => cases h
  | ok x =>
    cases h
    trivial

end Operators

end Chalkboard.Value

namespace Chalkboard.Run

open Effects
open Syntax (Expr Step Variable LiteralKind UnaryOp BinaryOp)
open Memory (Address Cell Location)

section Values

variable {a b v w : Value}

theorem literalValue_cases {types : Types} {kind : LiteralKind} {word : String}
    (h : literalValue types kind word = .ok v) :
    v.Sourceless ∨ (∃ k, v = .constant k ∧ types.registry.constants.lookup word = some k) ∨
      kind = .char ∧ v.IsText := by
  unfold literalValue at h
  cases kind with
  | enum =>
    dsimp only [Types.Registry.constant] at h
    split at h
    · rename_i k hlookup
      cases h
      exact .inr (.inl ⟨k, rfl, hlookup⟩)
    · cases h
  | char =>
    dsimp only at h
    split at h
    · cases h
      exact .inr (.inr ⟨rfl, _, rfl⟩)
    · cases h
  | null =>
    dsimp only at h
    split at h <;> cases h
    exact .inl trivial
  | boolean =>
    dsimp only at h
    split at h
    · cases h
      exact .inl trivial
    split at h <;> cases h
    exact .inl trivial
  | integer =>
    dsimp only at h
    split at h
    · cases h
      exact .inl trivial
    · cases hread : Number.readInt? word <;> rw [hread] at h <;> cases h
      exact .inl trivial
  | real =>
    dsimp only at h
    split at h
    · cases h
      exact .inl trivial
    · cases hread : Number.readReal? word <;> rw [hread] at h <;> cases h
      exact .inl trivial

theorem unaryValue_sourceless {op : UnaryOp} (h : unaryValue op v = .ok w) : w.Sourceless := by
  cases op with
  | negative =>
    have h := liftMisuse_ok h
    unfold Value.negate at h
    split at h <;> cases h <;> trivial
  | positive =>
    have h := liftMisuse_ok h
    unfold Value.plus at h
    split at h <;> cases h <;> trivial
  | not =>
    cases h
    trivial
  | other => cases h

theorem binaryValue_made {op : BinaryOp} (h : binaryValue op a b = .ok v) : Value.Made a b v := by
  cases op with
  | times => exact Value.mul_made (liftMisuse_ok h)
  | sum => exact Value.add_made (liftMisuse_ok h)
  | minus => exact .inl (Value.sub_sourceless (liftMisuse_ok h))
  | divide => exact .inl (Value.divide_sourceless (liftMisuse_ok h))
  | remainder => exact Value.remainder_made (liftMisuse_ok h)
  | or | and | other => cases h
  | equal | notEqual | less | lessEqual | more | moreEqual =>
    exact .inl (Value.sourceless_of_map (liftMisuse_ok h))

theorem settledBy_sourceless {op : BinaryOp} (h : settledBy op a = some v) : v.Sourceless := by
  unfold settledBy at h
  split at h
  · split at h <;> cases h
    trivial
  · split at h <;> cases h
    trivial
  · cases h

end Values

section Locate

variable {m : Memory} {here here' : Location} {c c' : Cell} {v : Variable} {g : Types.Graph}

theorem follow_inv (h : follow g m v c = .ok (here, c')) : g.isPointer c.type = true ∧
    ∃ a, c.value g = .ok (.address a) ∧ m.heapCell? a = some c' ∧ here = ⟨.heap a, []⟩ := by
  unfold follow at h
  split at h
  · cases h
  rename_i hpointer
  obtain ⟨value, hvalue, h⟩ := except_bind_ok h
  split at h
  · split at h
    · rename_i block hblock
      cases h
      exact ⟨by simpa using hpointer, _, hvalue, hblock, rfl⟩
    · cases h
  · obtain ⟨_, -, h⟩ := except_bind_ok h
    cases h

theorem follow_cellAt? (h : follow g m v c = .ok (here, c')) : m.cellAt? here = some c' := by
  obtain ⟨-, a, -, hblock, rfl⟩ := follow_inv h
  rw [Memory.cellAt?_heap, hblock]
  rfl

theorem cellAt?_part (hc : m.cellAt? here = some c) {i : Nat} (hpart : c.part? i = some c') :
    m.cellAt? ⟨here.root, here.path ++ [i]⟩ = some c' := by
  obtain ⟨root, path⟩ := here
  cases root with
  | stack name =>
    rw [Memory.cellAt?_stack] at hc ⊢
    obtain ⟨owner, howner, hat⟩ := Option.bind_eq_some_iff.1 hc
    rw [howner]
    exact Cell.at?_snoc hat hpart
  | heap a =>
    rw [Memory.cellAt?_heap] at hc ⊢
    obtain ⟨owner, howner, hat⟩ := Option.bind_eq_some_iff.1 hc
    rw [howner]
    exact Cell.at?_snoc hat hpart

theorem element_part {indexes : List Value} (h : element g here c indexes = .ok (here', c')) :
    ∃ i, here' = ⟨here.root, here.path ++ [i]⟩ ∧ c.part? i = some c' := by
  unfold element at h
  split at h
  · obtain ⟨flat, -, h⟩ := except_bind_ok h
    obtain ⟨i, -, h⟩ := except_bind_ok h
    split at h
    · rename_i part hpart
      cases h
      exact ⟨i, rfl, hpart⟩
    · cases h
  · cases h

theorem member_part {field : String} (h : member g v here c field = .ok (here', c')) :
    ∃ i, here' = ⟨here.root, here.path ++ [i]⟩ ∧ c.part? i = some c' := by
  unfold member at h
  split at h
  · rename_i t parts
    split at h
    · rename_i i hi
      cases h
      have hlt : i < parts.length := (List.findIdx?_eq_some_iff_getElem.1 hi).1
      have hpart : (Cell.tuple t parts).part? i = some (parts[i]).2 := by
        simp [Cell.part?, hlt]
      rw [hpart]
      exact ⟨i, rfl, hpart⟩
    · cases h
  · obtain ⟨_, -, h⟩ := except_bind_ok h
    obtain ⟨_, -, h⟩ := except_bind_ok h
    cases h

theorem walk_cons {env : Env} {step : Step} {steps : List Step} {found : Location × Cell}
    (h : walk env m v here c (step :: steps) = .ok found) :
    ∃ here₁ c₁, (follow env.types.graph m v c = .ok (here₁, c₁) ∨
      ∃ i, here₁ = ⟨here.root, here.path ++ [i]⟩ ∧ c.part? i = some c₁) ∧
      walk env m v here₁ c₁ steps = .ok found := by
  cases step with
  | deref =>
    rw [walk] at h
    obtain ⟨⟨here₁, c₁⟩, hstep, h⟩ := except_bind_ok h
    exact ⟨here₁, c₁, .inl hstep, h⟩
  | index indexes =>
    rw [walk] at h
    split at h
    · cases h
    split at h
    · cases h
    obtain ⟨values, -, h⟩ := except_bind_ok h
    obtain ⟨⟨here₁, c₁⟩, hstep, h⟩ := except_bind_ok h
    exact ⟨here₁, c₁, .inr (element_part hstep), h⟩
  | field name =>
    rw [walk] at h
    obtain ⟨⟨here₁, c₁⟩, hstep, h⟩ := except_bind_ok h
    exact ⟨here₁, c₁, .inr (member_part hstep), h⟩

theorem walk_keeps {env : Env} {P : Location → Cell → Prop}
    (hfollow : ∀ here c here' c', P here c → follow env.types.graph m v c = .ok (here', c') → P here' c')
    (hpart : ∀ here c i c', P here c → c.part? i = some c' → P ⟨here.root, here.path ++ [i]⟩ c')
    (steps : List Step) (hc : P here c) (h : walk env m v here c steps = .ok (here', c')) : P here' c' := by
  induction steps generalizing here c with
  | nil =>
    rw [walk] at h
    cases h
    exact hc
  | cons step steps ih =>
    obtain ⟨here₁, c₁, hstep | ⟨i, rfl, hi⟩, h⟩ := walk_cons h
    · exact ih (hfollow here c here₁ c₁ hc hstep) h
    · exact ih (hpart here c i c₁ hc hi) h

theorem walk_cellAt? {env : Env} (steps : List Step) (hc : m.cellAt? here = some c)
    (h : walk env m v here c steps = .ok (here', c')) : m.cellAt? here' = some c' :=
  walk_keeps (P := fun here c => m.cellAt? here = some c) (fun _ _ _ _ _ hstep => follow_cellAt? hstep)
    (fun _ _ _ _ hc hi => cellAt?_part hc hi) steps hc h

theorem locate_cellAt? {env : Env} (h : locate env m v = .ok (here, c)) : m.cellAt? here = some c := by
  unfold locate at h
  split at h
  · cases h
  · rename_i owner howner
    refine walk_cellAt? v.path ?_ h
    rw [Memory.cellAt?_stack, howner]
    rfl

end Locate

theorem leafValue_ok {c : Cell} {v : Value} (h : leafValue c = .ok v) : ∃ a t, c = .leaf a t v := by
  cases c with
  | leaf a t w =>
    cases h
    exact ⟨a, t, rfl⟩
  | array => cases h
  | tuple => cases h

def Holds (m : Memory) (v : Value) : Prop := ∃ a t, m.HasLeaf a t v

/-- Whether a character is written in an expression, other than in an index. -/
def spells : Expr → Bool
  | .literal kind _ => kind == .char
  | .binary left _ right => spells left || spells right
  | _ => false

variable {a : Address} {f : Frame} {m : Memory}

/-- What holds of the literals, of the values that variables lead to and of what operators make from values
of which it holds, holds of the values of expressions. -/
theorem evalExpr_induct (texts : Prop) {P : Value → Prop}
    (hplain : ∀ v, v.Sourceless → P v)
    (hliteral : ∀ kind word v, literalValue f.types kind word = .ok v → (kind = .char → texts) → P v)
    (hleaf : ∀ x here b t v, locate (f.env m) m x = .ok (here, .leaf b t v) → P v)
    (hmade : ∀ a b v, P a → P b → Value.Made a b v → P v) :
    (e : Expr) → (spells e = true → texts) → ∀ v, evalExpr (f.env m) e = .ok v → P v
  | .literal kind word, htexts, v, h => by
    rw [evalExpr] at h
    exact hliteral kind word.text v h fun hkind => htexts (by rw [spells, hkind]; rfl)
  | .access name path, _, v, h => by
    rw [evalExpr] at h
    dsimp only [Frame.env] at h
    split at h
    · cases h
    · rename_i owner howner
      obtain ⟨⟨here, c⟩, hwalk, h⟩ := except_bind_ok h
      obtain ⟨b, t, rfl⟩ := leafValue_ok h
      refine hleaf ⟨name, path⟩ here b t v ?_
      rw [locate, howner]
      exact hwalk
  | .unary op operand, _, v, h => by
    rw [evalExpr] at h
    obtain ⟨w, -, h⟩ := except_bind_ok h
    exact hplain v (unaryValue_sourceless h)
  | .binary left op right, htexts, v, h => by
    rw [spells, Bool.or_eq_true] at htexts
    rw [evalExpr] at h
    obtain ⟨a, ha, h⟩ := except_bind_ok h
    have ha := evalExpr_induct texts hplain hliteral hleaf hmade left (fun hl => htexts (.inl hl)) a ha
    split at h
    · rename_i w hw
      cases h
      exact hplain v (settledBy_sourceless hw)
    · obtain ⟨b, hb, h⟩ := except_bind_ok h
      have hb := evalExpr_induct texts hplain hliteral hleaf hmade right (fun hr => htexts (.inr hr)) b hb
      split at h
      · cases h
        exact hb
      · exact hmade a b v ha hb (binaryValue_made h)
  | .lazy body, _, v, h => by
    rw [evalExpr] at h
    cases h
    exact hplain _ trivial
  | .stray line text kind, _, v, h => by
    rw [evalExpr] at h
    cases h

theorem evalExpr_locates (e : Expr)
    (h : evalExpr (f.env m) e = .ok (.address a)) :
    ∃ v here b t, locate (f.env m) m v = .ok (here, .leaf b t (.address a)) := by
  refine evalExpr_induct True
    (P := fun v => ∀ a, v = .address a → ∃ x here b t, locate (f.env m) m x = .ok (here, .leaf b t v)) ?_ ?_ ?_ ?_
    e (fun _ => trivial) _ h a rfl
  · rintro _ hplain a rfl
    exact hplain.elim
  · rintro kind word _ hliteral - a rfl
    rcases literalValue_cases hliteral with hplain | ⟨k, hk, -⟩ | ⟨-, s, hs⟩
    · exact hplain.elim
    · cases hk
    · cases hs
  · exact fun x here b t v hlocate _ _ => ⟨x, here, b, t, hlocate⟩
  · exact fun _ _ v _ _ hmade a hv => absurd hv (hmade.inert a)

theorem evalExpr_address (e : Expr)
    (h : evalExpr (f.env m) e = .ok (.address a)) : Holds m (.address a) := by
  obtain ⟨v, here, b, t, hlocate⟩ := evalExpr_locates e h
  exact ⟨b, t, Memory.hasLeaf_of_cellAt? (locate_cellAt? hlocate)⟩

end Chalkboard.Run
