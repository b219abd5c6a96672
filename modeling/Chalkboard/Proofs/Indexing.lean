import Chalkboard.Proofs.Reachable
import Mathlib.Algebra.Group.Nat.Defs
import Mathlib.Data.List.Lex

/-! Indexes of arrays. Indexes are accepted when there is one whole number for each axis and it lies on it;
the place of an element then is its place in row-major order, which numbers the elements without a gap, and
the value of the array shows each element where its indexes say. -/

namespace Chalkboard.Types

open Effects

def wholeOf : Value → Option Int
  | .int i => some i
  | .bool b => some (if b then 1 else 0)
  | _ => none

def axisOf (b : Int × Int) : Axis := ⟨.known (.int b.1), .known (.int b.2)⟩

def axesOf (bounds : List (Int × Int)) : List Axis := bounds.map axisOf

def span (b : Int × Int) : Nat := (b.2 - b.1).toNat

def volume : List (Int × Int) → Nat
  | [] => 1
  | b :: bounds => span b * volume bounds

def Inside : List (Int × Int) → List Int → Prop := List.Forall₂ fun b i => b.1 ≤ i ∧ i < b.2

def rank : List (Int × Int) → List Int → Int
  | b :: bounds, i :: is => (i - b.1) * volume bounds + rank bounds is
  | _, _ => 0

section Rank

variable {b : Int × Int} {bounds : List (Int × Int)} {i : Int} {is js : List Int}

theorem span_cast (h : b.1 ≤ i ∧ i < b.2) : (span b : Int) = b.2 - b.1 := by
  rw [span, Int.toNat_of_nonneg (by omega)]

theorem rank_bounds (h : Inside bounds is) : 0 ≤ rank bounds is ∧ rank bounds is < volume bounds := by
  induction h with
  | nil => exact ⟨Int.le_refl 0, Int.zero_lt_one⟩
  | @cons b i bounds is hi _ ih =>
    have hspan := span_cast hi
    have hlow : 0 ≤ (i - b.1) * volume bounds := Int.mul_nonneg (by omega) (by omega)
    have hhigh : (i - b.1 + 1) * volume bounds ≤ (span b : Int) * volume bounds :=
      Int.mul_le_mul_of_nonneg_right (by omega) (by omega)
    rw [rank, volume, Int.natCast_mul]
    rw [Int.add_mul] at hhigh
    omega

theorem rank_lt_iff (h : Inside bounds is) (h' : Inside bounds js) :
    rank bounds is < rank bounds js ↔ List.Lex (· < ·) is js := by
  induction h generalizing js with
  | nil =>
    cases h'
    simp [rank]
  | @cons b i bounds is hi his ih =>
    cases h' with
    | @cons _ j _ js hj hjs =>
      obtain ⟨hlow, hhigh⟩ := rank_bounds his
      obtain ⟨hlow', hhigh'⟩ := rank_bounds hjs
      rw [rank, rank, List.cons_lex_cons_iff, ← ih hjs]
      have hstep {k l : Int} (hkl : k < l) : (k - b.1) * volume bounds + volume bounds ≤
          (l - b.1) * volume bounds := by
        have := Int.mul_le_mul_of_nonneg_right (a := k - b.1 + 1) (b := l - b.1) (c := volume bounds)
          (by omega) (by omega)
        rwa [Int.add_mul, Int.one_mul] at this
      rcases Int.lt_trichotomy i j with hlt | rfl | hgt
      · have := hstep hlt
        simp only [hlt, true_or, iff_true]
        omega
      · simp
      · have := hstep hgt
        have hne : ¬i < j := by omega
        have hne' : i ≠ j := by omega
        simp only [hne, hne', false_and, or_false, iff_false]
        omega

theorem exists_rank (k : Nat) (hk : k < volume bounds) : ∃ is, Inside bounds is ∧ rank bounds is = k := by
  induction bounds generalizing k with
  | nil =>
    obtain rfl : k = 0 := by simpa [volume] using hk
    exact ⟨[], .nil, rfl⟩
  | cons b bounds ih =>
    rw [volume] at hk
    have hpos : 0 < volume bounds := Nat.pos_of_ne_zero fun hzero => by simp [hzero] at hk
    obtain ⟨is, his, hrank⟩ := ih (k % volume bounds) (Nat.mod_lt _ hpos)
    have hdiv : k / volume bounds < span b := (Nat.div_lt_iff_lt_mul hpos).2 hk
    have hsplit := Nat.div_add_mod' k (volume bounds)
    generalize k / volume bounds = q at hdiv hsplit
    rw [span] at hdiv
    refine ⟨(b.1 + q) :: is, .cons ⟨by omega, by omega⟩ his, ?_⟩
    rw [rank, hrank, show b.1 + (q : Int) - b.1 = q by omega, ← Int.natCast_mul, ← Int.natCast_add, hsplit]

theorem rank_injective (h : Inside bounds is) (h' : Inside bounds js)
    (heq : rank bounds is = rank bounds js) : is = js := by
  rcases trichotomous_of (List.Lex (· < ·)) is js with hlt | rfl | hgt
  · have := (rank_lt_iff h h').2 hlt
    omega
  · rfl
  · have := (rank_lt_iff h' h).2 hgt
    omega

theorem volume_snoc (bounds : List (Int × Int)) (b : Int × Int) :
    volume (bounds ++ [b]) = volume bounds * span b := by
  induction bounds with
  | nil => simp [volume]
  | cons c bounds ih => rw [List.cons_append, volume, volume, ih, Nat.mul_assoc]

theorem rank_snoc (h : Inside bounds is) :
    rank (bounds ++ [b]) (is ++ [i]) = rank bounds is * span b + (i - b.1) := by
  induction h with
  | nil => simp [rank, volume]
  | cons hi his ih =>
    rw [List.cons_append, List.cons_append, rank, rank, ih, volume_snoc, Int.natCast_mul, Int.add_mul,
      Int.mul_assoc, Int.add_assoc]

end Rank

section Display

/-- The only thing that has no text is a number that is too long. -/
abbrev Overlong {α : Type} : Except Misuse α → Prop := FailsAs (· = .numeral)

theorem address_overlong (a : Memory.Address) : Overlong a.display := by
  unfold Memory.Address.display
  cases Number.wholeText? a.number with
  | none => exact .error rfl
  | some text => exact .ok _

mutual

theorem display_overlong : (v : Value) → Overlong v.display
  | .unknown | .null | .bool _ | .real _ | .text _ | .constant _ | .lazy _ | .absent => by
    rw [Value.display]
    exact .ok _
  | .int i => by
    rw [Value.display]
    cases Number.wholeText? i with
    | none => exact .error rfl
    | some text => exact .ok text
  | .address a => by
    rw [Value.display]
    exact address_overlong a
  | .list items => by
    rw [Value.display]
    exact (displayItems_overlong items).map
  | .record fields => by
    rw [Value.display]
    exact (displayFields_overlong fields).map

theorem displayItems_overlong : (items : List Value) → Overlong (Value.displayItems items)
  | [] => .ok _
  | v :: items => by
    rw [Value.displayItems]
    exact (display_overlong v).bind fun _ _ => (displayItems_overlong items).bind fun _ _ => .ok _

theorem displayFields_overlong : (fields : List (String × Value)) → Overlong (Value.displayFields fields)
  | [] => .ok _
  | (name, v) :: fields => by
    rw [Value.displayFields]
    exact (display_overlong v).bind fun _ _ => (displayFields_overlong fields).bind fun _ _ => .ok _

end

theorem exists_of_displayItems {items : List Value} {e : Misuse} (h : Value.displayItems items = .error e) :
    ∃ v ∈ items, v.display = .error e := by
  induction items with
  | nil => cases h
  | cons v items ih =>
    rw [Value.displayItems] at h
    cases hv : v.display with
    | error e' =>
      rw [hv] at h
      cases h
      exact ⟨v, List.mem_cons_self, hv⟩
    | ok text =>
      cases hitems : Value.displayItems items with
      | error e' =>
        rw [hv, hitems] at h
        cases h
        obtain ⟨w, hw, hdisplay⟩ := ih hitems
        exact ⟨w, List.mem_cons_of_mem _ hw, hdisplay⟩
      | ok texts =>
        rw [hv, hitems] at h
        cases h

end Display

section Flatten

variable {b : Int × Int} {bounds : List (Int × Int)} {i : Int} {is : List Int} {v : Value}
  {indexes : List Value}

def Wholes : List Value → List Int → Prop := List.Forall₂ fun v i => wholeOf v = some i

/-- A number without a text, among the indexes or the ends of the axes. -/
def Unwritten (bounds : List (Int × Int)) (indexes : List Value) : Prop :=
  (∃ v ∈ indexes, v.display = .error .numeral) ∨
    ∃ b ∈ bounds, Number.wholeText? b.1 = none ∨ Number.wholeText? b.2 = none

def Refusal (bounds : List (Int × Int)) (indexes : List Value) (e : Fault) : Prop :=
  (∃ problem, e = .typing problem) ∨ e = .misuse .numeral ∧ Unwritten bounds indexes

theorem isWhole_iff : isWhole v = true ↔ ∃ i, wholeOf v = some i := by
  cases v <;> simp [isWhole, wholeOf]

theorem numeric?_whole (hv : wholeOf v = some i) : v.numeric? = some (.whole i) := by
  cases v <;> cases hv <;> rfl

theorem order_whole (hv : wholeOf v = some i) (j : Int) :
    (Value.int j).order v = .ok (some (compare j i)) ∧ v.order (.int j) = .ok (some (compare i j)) := by
  cases v <;> cases hv <;> exact ⟨rfl, rfl⟩

theorem lessEqual_whole (hv : wholeOf v = some i) (j : Int) :
    (Value.int j).lessEqual v = .ok (decide (j ≤ i)) := by
  rw [Value.lessEqual, (order_whole hv j).1]
  change Except.ok _ = _
  congr 1
  rcases Int.lt_trichotomy j i with h | rfl | h
  · simp [Int.compare_eq_lt.2 h, Int.le_of_lt h]
  · simp
  · simp [Int.compare_eq_gt.2 h, h]

theorem less_whole (hv : wholeOf v = some i) (j : Int) : v.less (.int j) = .ok (decide (i < j)) := by
  have hless : v.less (.int j) = (v.order (.int j)).map (· == some .lt) := by
    cases v <;> cases hv <;> rfl
  rw [hless, (order_whole hv j).2]
  change Except.ok _ = _
  congr 1
  rw [Bool.eq_iff_iff]
  simp [Int.compare_eq_lt]

theorem sub_whole (hv : wholeOf v = some i) (j : Int) : v.sub (.int j) = .ok (.int (i - j)) := by
  rw [Value.sub, Value.arithmetic, numeric?_whole hv]
  rfl

theorem holds_axisOf (hv : wholeOf v = some i) :
    (axisOf b).holds v = .ok (decide (b.1 ≤ i ∧ i < b.2)) := by
  unfold Axis.holds axisOf
  simp only [Limit.value, except_ok_bind, lessEqual_whole hv, less_whole hv, liftMisuse]
  by_cases h : b.1 ≤ i <;> simp [h, pure, Except.pure]

/-- What is said of an index that does not lie on its axis. -/
def refused (v : Value) (b : Int × Int) : Except Fault Value := do
  let index ← liftMisuse v.plain
  throw (.typing (.indexOutOfBounds index (← liftMisuse (axisOf b).display)))

theorem flattenFrom_cons (hv : wholeOf v = some i) (flat step : Int) (rest : List (Value × Axis)) :
    flattenFrom (.int flat) (.int step) ((v, axisOf b) :: rest) =
      if b.1 ≤ i ∧ i < b.2 then
        flattenFrom (.int (flat + (i - b.1) * step)) (.int (step * (b.2 - b.1))) rest
      else refused v b := by
  rw [flattenFrom, holds_axisOf hv, except_ok_bind]
  by_cases h : b.1 ≤ i ∧ i < b.2
  · rw [if_pos h, decide_eq_true h]
    simp only [axisOf, Limit.value, except_ok_bind, sub_whole hv, liftMisuse]
    rfl
  · rw [if_neg h, decide_eq_false h]
    rfl

theorem unwritten_int {e : Misuse} (h : (Value.int i).display = .error e) : Number.wholeText? i = none := by
  rw [Value.display] at h
  generalize Number.wholeText? i = shown at h
  cases shown with
  | none => rfl
  | some text => cases h

theorem unwritten_axisOf {e : Misuse} (h : (axisOf b).display = .error e) :
    e = .numeral ∧ (Number.wholeText? b.1 = none ∨ Number.wholeText? b.2 = none) := by
  unfold Axis.display at h
  change ((Value.int b.1).display >>= fun low => (Value.int b.2).display >>= fun high => _) = _ at h
  cases hlow : (Value.int b.1).display with
  | error e' =>
    rw [hlow] at h
    cases h
    exact ⟨display_overlong _ _ hlow, .inl (unwritten_int hlow)⟩
  | ok low =>
    cases hhigh : (Value.int b.2).display with
    | error e' =>
      rw [hlow, hhigh] at h
      cases h
      exact ⟨display_overlong _ _ hhigh, .inr (unwritten_int hhigh)⟩
    | ok high =>
      rw [hlow, hhigh] at h
      cases h

theorem refused_fails (hv : wholeOf v = some i) (hmem : v ∈ indexes) (hb : b ∈ bounds) :
    ∃ e, refused v b = .error e ∧ Refusal bounds indexes e := by
  have hplain : v.plain = v.display := by cases v <;> cases hv <;> rfl
  rw [refused, hplain]
  rcases hdisplay : v.display with e | text
  · have he := display_overlong v e hdisplay
    subst he
    exact ⟨_, rfl, .inr ⟨rfl, .inl ⟨v, hmem, hdisplay⟩⟩⟩
  rcases haxis : (axisOf b).display with e | shown
  · obtain ⟨he, hends⟩ := unwritten_axisOf haxis
    subst he
    exact ⟨_, rfl, .inr ⟨rfl, .inr ⟨b, hb, hends⟩⟩⟩
  · exact ⟨_, rfl, .inl ⟨_, rfl⟩⟩

theorem flattenFrom_inside {rbounds : List (Int × Int)} {ris : List Int} {rindexes : List Value}
    (hwhole : Wholes rindexes ris) (h : Inside rbounds ris) (flat step : Int) :
    flattenFrom (.int flat) (.int step) (rindexes.zip (axesOf rbounds)) =
      .ok (.int (flat + step * rank rbounds.reverse ris.reverse)) := by
  induction h generalizing rindexes flat step with
  | nil =>
    cases hwhole
    simp [rank, flattenFrom]
  | @cons b i bounds is hi his ih =>
    cases hwhole with
    | cons hv hvs =>
      have hreverse : Inside bounds.reverse is.reverse := List.forall₂_reverse_iff.2 his
      rw [axesOf, List.map_cons, List.zip_cons_cons, flattenFrom_cons hv, if_pos hi, ← axesOf, ih hvs,
        List.reverse_cons, List.reverse_cons, rank_snoc hreverse, span_cast hi]
      congr 2
      rw [Int.mul_add, Int.mul_comm (i - b.1) step, Int.mul_assoc, Int.mul_comm (b.2 - b.1)]
      omega

theorem flattenFrom_outside {rbounds : List (Int × Int)} {ris : List Int} {rindexes : List Value}
    (hwhole : Wholes rindexes ris) (hlength : rbounds.length = ris.length) (h : ¬Inside rbounds ris)
    (hindexes : rindexes ⊆ indexes) (hbounds : rbounds ⊆ bounds) (flat step : Int) :
    ∃ e, flattenFrom (.int flat) (.int step) (rindexes.zip (axesOf rbounds)) = .error e ∧
      Refusal bounds indexes e := by
  induction hwhole generalizing rbounds flat step with
  | nil =>
    obtain rfl := List.eq_nil_of_length_eq_zero hlength
    exact absurd .nil h
  | @cons v i rindexes ris hv _ ih =>
    obtain _ | ⟨b, rbounds⟩ := rbounds
    · cases hlength
    rw [axesOf, List.map_cons, List.zip_cons_cons, flattenFrom_cons hv]
    split
    · rename_i hi
      exact ih (Nat.succ.inj hlength) (fun hin => h (.cons hi hin)) (List.subset_of_cons_subset hindexes)
        (List.subset_of_cons_subset hbounds) _ _
    · exact refused_fails hv (hindexes List.mem_cons_self) (hbounds List.mem_cons_self)

theorem axesOf_length (bounds : List (Int × Int)) : (axesOf bounds).length = bounds.length :=
  List.length_map _

theorem exists_wholes (h : indexes.all isWhole = true) : ∃ is, Wholes indexes is := by
  induction indexes with
  | nil => exact ⟨[], .nil⟩
  | cons v indexes ih =>
    rw [List.all_cons, Bool.and_eq_true] at h
    obtain ⟨i, hi⟩ := isWhole_iff.1 h.1
    obtain ⟨is, his⟩ := ih h.2
    exact ⟨i :: is, .cons hi his⟩

theorem Wholes.all_isWhole (h : Wholes indexes is) : indexes.all isWhole = true := by
  induction h with
  | nil => rfl
  | cons hv _ ih => rw [List.all_cons, isWhole_iff.2 ⟨_, hv⟩, ih, Bool.and_self]

theorem flatten_wholes (hwhole : Wholes indexes is) (hlength : indexes.length = bounds.length) :
    flatten (axesOf bounds) indexes =
      flattenFrom (.int 0) (.int 1) (indexes.reverse.zip (axesOf bounds.reverse)) := by
  have hlengths : indexes.length = (axesOf bounds).length := by rw [axesOf_length, hlength]
  rw [flatten, if_neg (by simp [hlengths]), hwhole.all_isWhole, if_neg (by simp), List.zip_eq_zipWith,
    List.reverse_zipWith hlengths, List.zip_eq_zipWith, axesOf, axesOf, List.map_reverse]

theorem flatten_inside (hwhole : Wholes indexes is) (h : Inside bounds is) :
    flatten (axesOf bounds) indexes = .ok (.int (rank bounds is)) := by
  rw [flatten_wholes hwhole (hwhole.length_eq.trans h.length_eq.symm),
    flattenFrom_inside (List.forall₂_reverse_iff.2 hwhole) (List.forall₂_reverse_iff.2 h),
    List.reverse_reverse, List.reverse_reverse, Int.zero_add, Int.one_mul]

theorem flatten_outside (h : ∀ is, Wholes indexes is → ¬Inside bounds is) :
    ∃ e, flatten (axesOf bounds) indexes = .error e ∧ Refusal bounds indexes e := by
  by_cases hlength : indexes.length = bounds.length
  · cases hall : indexes.all isWhole with
    | true =>
      obtain ⟨is, his⟩ := exists_wholes hall
      rw [flatten_wholes his hlength]
      refine flattenFrom_outside (List.forall₂_reverse_iff.2 his) ?_ (fun hin => ?_) (by simp) (by simp) 0 1
      · rw [List.length_reverse, List.length_reverse, ← hlength, his.length_eq]
      · exact h is his (List.forall₂_reverse_iff.1 hin)
    | false =>
      rw [flatten, if_neg (by simp [axesOf_length, hlength]), hall, if_pos (by simp)]
      rcases hdisplay : (Value.list indexes).display with e | text
      · have he := display_overlong _ e hdisplay
        subst he
        refine ⟨_, rfl, .inr ⟨rfl, .inl ?_⟩⟩
        rw [Value.display] at hdisplay
        refine exists_of_displayItems ?_
        cases hitems : Value.displayItems indexes <;> rw [hitems] at hdisplay <;> cases hdisplay
        rfl
      · exact ⟨_, rfl, .inl ⟨_, rfl⟩⟩
  · rw [flatten, if_pos (by simpa [axesOf_length] using hlength)]
    exact ⟨_, rfl, .inl ⟨_, rfl⟩⟩

theorem flatten_ok_iff {k : Value} : flatten (axesOf bounds) indexes = .ok k ↔
    ∃ is, Wholes indexes is ∧ Inside bounds is ∧ k = .int (rank bounds is) := by
  constructor
  · intro hk
    by_cases h : ∃ is, Wholes indexes is ∧ Inside bounds is
    · obtain ⟨is, hwhole, hin⟩ := h
      rw [flatten_inside hwhole hin] at hk
      exact ⟨is, hwhole, hin, (Except.ok.inj hk).symm⟩
    · obtain ⟨e, he, -⟩ := flatten_outside fun is hwhole hin => h ⟨is, hwhole, hin⟩
      rw [he] at hk
      cases hk
  · rintro ⟨is, hwhole, hin, rfl⟩
    exact flatten_inside hwhole hin

end Flatten

section Shape

theorem extent_axisOf (b : Int × Int) : (axisOf b).extent = .ok (.int (span b)) := by
  unfold Axis.extent Axis.length axisOf
  change (if (some (compare (b.2 - b.1) 0) == some Ordering.gt) = true then
    Except.ok (Value.int (b.2 - b.1)) else Except.ok (Value.int 0)) = .ok (.int (span b))
  rw [span]
  split
  · rename_i hmore
    have hpos : 0 < b.2 - b.1 := by simpa [Int.compare_eq_gt] using hmore
    rw [Int.toNat_of_nonneg (by omega)]
  · rename_i hmore
    have hneg : b.2 ≤ b.1 := by simpa [Int.compare_eq_gt] using hmore
    rw [Int.toNat_of_nonpos (by omega)]
    rfl

theorem shape_axesOf (bounds : List (Int × Int)) :
    shape (axesOf bounds) = .ok (bounds.map fun b => .int (span b)) := by
  induction bounds with
  | nil => rfl
  | cons b bounds ih =>
    rw [shape] at ih
    rw [shape, axesOf, List.map_cons, List.mapM_cons, extent_axisOf, ← axesOf, ih]
    rfl

theorem elementCount_axesOf (bounds : List (Int × Int)) :
    elementCount (axesOf bounds) = .ok (.int (volume bounds)) := by
  have hproduct (k : Nat) : (bounds.map fun b => Value.int (span b)).foldlM
      (fun n m => liftMisuse (n.mul m)) (Value.int k) = .ok (.int ((k * volume bounds : Nat))) := by
    induction bounds generalizing k with
    | nil => simp [volume]; rfl
    | cons b bounds ih =>
      rw [volume, ← Nat.mul_assoc, ← ih (k * span b), Int.natCast_mul]
      rfl
  rw [elementCount, shape_axesOf]
  have := hproduct 1
  rwa [Nat.one_mul] at this

end Shape

end Chalkboard.Types

namespace Chalkboard.Memory

open Effects
open Chalkboard.Types (Graph TypeId axesOf span volume rank Inside)
open Timeline (mapM_ok)

/-- What stands in nested lists, at one position in each. -/
def dig : Value → List Nat → Option Value
  | v, [] => some v
  | .list items, k :: ks => items[k]?.bind fun v => dig v ks
  | _, _ :: _ => none

/-- The place in row-major order, from positions along axes of some lengths. -/
def placeIn : List Nat → List Nat → Nat
  | _ :: ns, k :: ks => k * ns.prod + placeIn ns ks
  | _, _ => 0

section Nest

variable {ns ks : List Nat} {items : List Value}

theorem placeIn_lt (h : List.Forall₂ (· < ·) ks ns) : placeIn ns ks < ns.prod := by
  induction h with
  | nil => exact Nat.zero_lt_one
  | @cons k n ks ns hk _ ih =>
    have hrow : (k + 1) * ns.prod ≤ n * ns.prod := Nat.mul_le_mul_right _ hk
    rw [Nat.add_mul, Nat.one_mul] at hrow
    rw [placeIn, List.prod_cons]
    omega

theorem getElem?_pieces {n size : Nat} (hpos : 0 < size) (hlength : items.length = n * size) (k : Nat) :
    (Cell.pieces size items)[k]? = if k < n then some ((items.drop (k * size)).take size) else none := by
  rw [Cell.pieces, hlength, Nat.mul_div_cancel _ hpos, List.getElem?_map]
  split
  · rename_i hk
    rw [List.getElem?_range hk]
    rfl
  · rename_i hk
    rw [List.getElem?_eq_none (by simpa using hk)]
    rfl

theorem length_piece {n size k : Nat} (hlength : items.length = n * size) (hk : k < n) :
    ((items.drop (k * size)).take size).length = size := by
  have hrow : (k + 1) * size ≤ n * size := Nat.mul_le_mul_right _ hk
  rw [Nat.add_mul, Nat.one_mul] at hrow
  rw [List.length_take, List.length_drop]
  omega

/-- Nested lists that show items where their places in row-major order say. -/
def Unfolds (ns : List Nat) (items : List Value) (v : Value) : Prop :=
  ∀ ks w, ks.length = ns.length →
    (dig v ks = some w ↔ List.Forall₂ (· < ·) ks ns ∧ items[placeIn ns ks]? = some w)

theorem unfolds_row (n : Nat) (hlength : items.length = n) : Unfolds [n] items (.list items) := by
  intro ks w hks
  obtain ⟨k, rfl⟩ := List.length_eq_one_iff.1 hks
  have hdig : dig (.list items) [k] = items[k]? := by
    rw [dig]
    cases items[k]? <;> rfl
  have hplace : placeIn [n] [k] = k := by simp [placeIn]
  rw [hdig, hplace]
  refine ⟨fun hw => ⟨.cons ?_ .nil, hw⟩, fun h => h.2⟩
  exact hlength ▸ (List.getElem?_eq_some_iff.1 hw).1

theorem unfolds_rows {n : Nat} {rows : List Value} (hcount : rows.length = n)
    (hrows : ∀ k row, rows[k]? = some row → Unfolds ns ((items.drop (k * ns.prod)).take (ns.prod)) row) :
    Unfolds (n :: ns) items (.list rows) := by
  intro ks w hks
  obtain _ | ⟨k, ks⟩ := ks
  · cases hks
  rw [dig, placeIn, List.forall₂_cons]
  by_cases hk : k < n
  · have hrow : rows[k]? = some (rows[k]) := List.getElem?_eq_getElem (hcount ▸ hk)
    rw [hrow, Option.bind_some, hrows k _ hrow ks w (Nat.succ.inj hks)]
    constructor
    · rintro ⟨hin, hw⟩
      rw [List.getElem?_take_of_lt (placeIn_lt hin), List.getElem?_drop] at hw
      exact ⟨⟨hk, hin⟩, hw⟩
    · rintro ⟨⟨-, hin⟩, hw⟩
      refine ⟨hin, ?_⟩
      rwa [List.getElem?_take_of_lt (placeIn_lt hin), List.getElem?_drop]
  · rw [List.getElem?_eq_none (by omega)]
    simp [hk]

theorem nest_ok (hne : ns ≠ []) (hpos : ∀ n ∈ ns, 0 < n) (hlength : items.length = ns.prod) :
    ∃ v, Cell.nest ns items = .ok v ∧ Unfolds ns items v := by
  induction ns generalizing items with
  | nil => exact absurd rfl hne
  | cons n rest ih =>
    obtain _ | ⟨m, rest⟩ := rest
    · rw [List.prod_singleton] at hlength
      exact ⟨.list items, rfl, unfolds_row n hlength⟩
    have hsize : 0 < (m :: rest).prod :=
      List.prod_pos_iff_forall_pos_nat.2 fun m hm => hpos m (List.mem_cons_of_mem _ hm)
    rw [List.prod_cons] at hlength
    have hnest (k : Nat) (hk : k < n) := ih (List.cons_ne_nil m rest)
      (fun m hm => hpos m (List.mem_cons_of_mem _ hm)) (length_piece hlength hk)
    have hpiece {k : Nat} {piece : List Value}
        (h : (Cell.pieces ((m :: rest).prod) items)[k]? = some piece) :
        k < n ∧ piece = (items.drop (k * (m :: rest).prod)).take ((m :: rest).prod) := by
      rw [getElem?_pieces hsize hlength] at h
      split at h
      · rename_i hk
        exact ⟨hk, (Option.some.inj h).symm⟩
      · cases h
    obtain ⟨rows, hrows⟩ : ∃ rows,
        (Cell.pieces ((m :: rest).prod) items).mapM (Cell.nest (m :: rest)) = .ok rows := by
      refine Timeline.mapM_total fun piece hmem => ?_
      obtain ⟨k, hk⟩ := List.getElem?_of_mem hmem
      obtain ⟨hlt, rfl⟩ := hpiece hk
      obtain ⟨v, hv, -⟩ := hnest k hlt
      exact ⟨v, hv⟩
    refine ⟨.list rows, ?_, unfolds_rows ?_ fun k row hrow => ?_⟩
    · rw [Cell.nest]
      dsimp only
      rw [← List.prod_eq_foldl, if_neg (by simpa using Nat.ne_of_gt hsize), hrows]
      rfl
    · rw [← (mapM_ok hrows).length_eq, Cell.pieces, List.length_map, List.length_range, hlength,
        Nat.mul_div_cancel _ hsize]
    · obtain ⟨piece, hk, hv⟩ := forall₂_getElem? (mapM_ok hrows) hrow
      obtain ⟨hlt, rfl⟩ := hpiece hk
      obtain ⟨v, hv', hunfolds⟩ := hnest k hlt
      cases hv.symm.trans hv'
      exact hunfolds

end Nest

/-- The positions along the axes, counted from where each axis begins. -/
def offsets (bounds : List (Int × Int)) (is : List Int) : List Nat :=
  bounds.zipWith (fun b i => (i - b.1).toNat) is

section Offsets

variable {bounds : List (Int × Int)} {is : List Int} {ks : List Nat}

theorem volume_eq_product (bounds : List (Int × Int)) : volume bounds = (bounds.map span).prod := by
  induction bounds with
  | nil => rfl
  | cons b bounds ih => rw [volume, List.map_cons, List.prod_cons, ih]

theorem offsets_inside (h : Inside bounds is) :
    List.Forall₂ (· < ·) (offsets bounds is) (bounds.map span) ∧
      placeIn (bounds.map span) (offsets bounds is) = (rank bounds is).toNat := by
  induction h with
  | nil => exact ⟨.nil, rfl⟩
  | @cons b i bounds is hi his ih =>
    obtain ⟨hlow, -⟩ := Types.rank_bounds his
    refine ⟨.cons ?_ ih.1, ?_⟩
    · change (i - b.1).toNat < (b.2 - b.1).toNat
      omega
    · have hrow : 0 ≤ (i - b.1) * volume bounds := Int.mul_nonneg (by omega) (by omega)
      rw [offsets, List.zipWith_cons_cons, ← offsets, List.map_cons, placeIn, ih.2, rank,
        ← volume_eq_product, Int.toNat_add hrow hlow, Int.toNat_mul (by omega) (by omega),
        Int.toNat_natCast]

theorem exists_offsets (h : List.Forall₂ (· < ·) ks (bounds.map span)) :
    ∃ is, Inside bounds is ∧ offsets bounds is = ks := by
  induction bounds generalizing ks with
  | nil =>
    cases h
    exact ⟨[], .nil, rfl⟩
  | cons b bounds ih =>
    cases h with
    | @cons k _ ks _ hk hks =>
      obtain ⟨is, his, rfl⟩ := ih hks
      rw [span] at hk
      refine ⟨(b.1 + k) :: is, .cons ⟨by omega, by omega⟩ his, ?_⟩
      rw [offsets, List.zipWith_cons_cons, ← offsets]
      congr 1
      omega

end Offsets

section Arrays

variable {g : Graph} {bounds : List (Int × Int)} {t element : TypeId} {parts : List Cell}

theorem lengths_axesOf (hnode : g.node t = .array element (axesOf bounds)) :
    Cell.lengths g t = .ok (bounds.map span) := by
  have hcounts (bounds : List (Int × Int)) :
      (bounds.map fun b => Value.int (span b)).mapM Cell.countOf = .ok (bounds.map span) := by
    induction bounds with
    | nil => rfl
    | cons b bounds ih =>
      rw [List.map_cons, List.mapM_cons, ih]
      rfl
  rw [Cell.lengths, hnode]
  dsimp only
  rw [Types.shape_axesOf, except_ok_bind, hcounts]

theorem value_array (hnode : g.node t = .array element (axesOf bounds)) :
    (Cell.array t parts).value g =
      Cell.partValues g parts >>= fun values => Cell.nest (bounds.map span) values := by
  rw [Cell.value, lengths_axesOf hnode]
  rfl

variable {axes : List Types.Axis} {values : List Value}

theorem getElem?_partValues (h : Cell.partValues g parts = .ok values) (i : Nat)
    (w : Value) : values[i]? = some w ↔ ∃ part, parts[i]? = some part ∧ part.value g = .ok w := by
  have hvalues := partValues_ok h
  constructor
  · exact forall₂_getElem? hvalues
  · rintro ⟨part, hpart, hw⟩
    obtain ⟨v, hv, hvalue⟩ := forall₂_getElem? hvalues.flip hpart
    cases hvalue.symm.trans hw
    exact hv

theorem value_unfolds (hnode : g.node t = .array element (axesOf bounds))
    (hcount : parts.length = volume bounds) (hne : bounds ≠ []) (hpos : ∀ b ∈ bounds, b.1 < b.2)
    (hvalues : Cell.partValues g parts = .ok values) :
    ∃ v, (Cell.array t parts).value g = .ok v ∧ ∀ ks w, ks.length = bounds.length →
      (dig v ks = some w ↔ ∃ is, Inside bounds is ∧ offsets bounds is = ks ∧
        ∃ part, parts[(rank bounds is).toNat]? = some part ∧ part.value g = .ok w) := by
  have hlength : values.length = (bounds.map span).prod := by
    rw [← (partValues_ok hvalues).length_eq, hcount, volume_eq_product]
  have hspans : ∀ n ∈ bounds.map span, 0 < n := by
    intro n hn
    obtain ⟨b, hb, rfl⟩ := List.mem_map.1 hn
    have := hpos b hb
    rw [span]
    omega
  obtain ⟨v, hv, hunfolds⟩ := nest_ok (by simpa using hne) hspans hlength
  refine ⟨v, by rw [value_array hnode, hvalues]; exact hv, fun ks w hks => ?_⟩
  rw [hunfolds ks w (by simpa using hks)]
  constructor
  · rintro ⟨hin, hw⟩
    obtain ⟨is, his, rfl⟩ := exists_offsets hin
    rw [(offsets_inside his).2] at hw
    exact ⟨is, his, rfl, (getElem?_partValues hvalues _ w).1 hw⟩
  · rintro ⟨is, his, rfl, hpart⟩
    obtain ⟨hin, hplace⟩ := offsets_inside his
    refine ⟨hin, ?_⟩
    rw [hplace]
    exact (getElem?_partValues hvalues _ w).2 hpart

theorem element_inside (hnode : g.node t = .array element (axesOf bounds))
    (hcount : parts.length = volume bounds) {indexes : List Value} {is : List Int}
    (hwhole : Types.Wholes indexes is) (hin : Inside bounds is) (here : Location) :
    ∃ part, parts[(rank bounds is).toNat]? = some part ∧
      Run.element g here (.array t parts) indexes =
        .ok (⟨here.root, here.path ++ [(rank bounds is).toNat]⟩, part) := by
  obtain ⟨hlow, hhigh⟩ := Types.rank_bounds hin
  have hlt : (rank bounds is).toNat < parts.length := by omega
  refine ⟨parts[(rank bounds is).toNat], List.getElem?_eq_getElem hlt, ?_⟩
  rw [Run.element, Cell.type, hnode]
  dsimp only
  rw [Types.flatten_inside hwhole hin, except_ok_bind, Cell.countOf, except_ok_bind, Cell.part?,
    List.getElem?_eq_getElem hlt]
  rfl

theorem exists_axesOf (h : ∀ a ∈ axes, a.low.IsWhole ∧ a.high.IsWhole) :
    ∃ bounds, axes = axesOf bounds := by
  induction axes with
  | nil => exact ⟨[], rfl⟩
  | cons a axes ih =>
    obtain ⟨low, high⟩ := a
    obtain ⟨⟨i, rfl⟩, ⟨j, rfl⟩⟩ := h _ List.mem_cons_self
    obtain ⟨bounds, rfl⟩ := ih fun a ha => h a (List.mem_cons_of_mem _ ha)
    exact ⟨(i, j) :: bounds, rfl⟩

theorem Shaped.array_parts (sound : g.Sound) {c : Cell} (h : Shaped g c.type c)
    (hnode : g.node c.type = .array element axes) :
    ∃ parts bounds, c = .array c.type parts ∧ axes = axesOf bounds ∧ bounds ≠ [] ∧
      parts.length = volume bounds := by
  have hplain := sound.plain c.type
  rw [hnode] at hplain
  obtain ⟨bounds, rfl⟩ := exists_axesOf hplain.2
  have hne : bounds ≠ [] := by
    rintro rfl
    exact hplain.1 rfl
  cases c with
  | leaf a t v =>
    cases h with
    | leaf _ _ harray _ => exact absurd hnode (harray _ _)
  | array t parts =>
    cases h with
    | array hnode' hparts _ =>
      cases hnode'.symm.trans hnode
      rw [Types.elementCount_axesOf] at hparts
      refine ⟨parts, bounds, rfl, rfl, hne, ?_⟩
      have hlength : (volume bounds : Int) = parts.length := by
        injection hparts with hparts
        injection hparts
      omega
  | tuple t parts =>
    cases h with
    | tuple hnode' _ _ => cases hnode'.symm.trans hnode

end Arrays

/-- The elements of an array are numbered by their indexes, in row-major order. -/
structure RowMajor (bounds : List (Int × Int)) : Prop where
  accepts (indexes : List Value) (k : Value) : Types.flatten (axesOf bounds) indexes = .ok k ↔
    ∃ is, Types.Wholes indexes is ∧ Inside bounds is ∧ k = .int (rank bounds is)
  refuses (indexes : List Value) (e : Fault) (h : Types.flatten (axesOf bounds) indexes = .error e) :
    Types.Refusal bounds indexes e
  count : Types.elementCount (axesOf bounds) = .ok (.int (volume bounds))
  within (is : List Int) (h : Inside bounds is) : 0 ≤ rank bounds is ∧ rank bounds is < volume bounds
  onto (k : Nat) (h : k < volume bounds) : ∃! is, Inside bounds is ∧ rank bounds is = k
  ordered (is js : List Int) (h : Inside bounds is) (h' : Inside bounds js) :
    List.Lex (· < ·) is js ↔ rank bounds is < rank bounds js

/-- Indexes lead to the parts of an array cell, and its value shows them in the same places. -/
structure Indexed (g : Graph) (bounds : List (Int × Int)) (t : TypeId) (parts : List Cell) : Prop where
  reaches (here : Location) (indexes : List Value) (is : List Int) (hwhole : Types.Wholes indexes is)
    (hin : Inside bounds is) : ∃ part, parts[(rank bounds is).toNat]? = some part ∧
      Run.element g here (.array t parts) indexes =
        .ok (⟨here.root, here.path ++ [(rank bounds is).toNat]⟩, part)
  fails (hne : bounds ≠ []) (hpos : ∀ b ∈ bounds, b.1 < b.2) (e : Fault) :
    (Cell.array t parts).value g = .error e ↔ Cell.partValues g parts = .error e
  shows (hne : bounds ≠ []) (hpos : ∀ b ∈ bounds, b.1 < b.2) (v : Value)
    (hv : (Cell.array t parts).value g = .ok v) (ks : List Nat) (w : Value)
    (hks : ks.length = bounds.length) : dig v ks = some w ↔ ∃ is, Inside bounds is ∧ offsets bounds is = ks ∧
      ∃ part, parts[(rank bounds is).toNat]? = some part ∧ part.value g = .ok w
  axisless (hnone : bounds = []) (v : Value) : (Cell.array t parts).value g ≠ .ok v

section Main

variable {g : Graph} {bounds : List (Int × Int)} {t element : TypeId} {parts : List Cell}

theorem rowMajor (bounds : List (Int × Int)) : RowMajor bounds where
  accepts _ _ := Types.flatten_ok_iff
  refuses indexes e h := by
    obtain ⟨e', he', hrefusal⟩ := Types.flatten_outside fun is hwhole hin => by
      rw [Types.flatten_inside hwhole hin] at h
      cases h
    cases he'.symm.trans h
    exact hrefusal
  count := Types.elementCount_axesOf bounds
  within _ h := Types.rank_bounds h
  onto k h := by
    obtain ⟨is, his, hrank⟩ := Types.exists_rank k h
    exact ⟨is, ⟨his, hrank⟩, fun js hjs => Types.rank_injective hjs.1 his (hjs.2.trans hrank.symm)⟩
  ordered _ _ h h' := (Types.rank_lt_iff h h').symm

theorem indexed (hnode : g.node t = .array element (axesOf bounds))
    (hcount : parts.length = volume bounds) : Indexed g bounds t parts where
  reaches here _ _ hwhole hin := element_inside hnode hcount hwhole hin here
  fails hne hpos e := by
    rcases hvalues : Cell.partValues g parts with e' | values
    · rw [value_array hnode, hvalues]
      exact ⟨(fun h => by cases h; rfl), fun h => by cases h; rfl⟩
    · obtain ⟨v, hv, -⟩ := value_unfolds hnode hcount hne hpos hvalues
      rw [hv]
      exact ⟨(fun h => by cases h), fun h => by cases h⟩
  shows hne hpos v hv ks w hks := by
    have hvalue := hv
    rw [value_array hnode] at hvalue
    obtain ⟨values, hvalues, -⟩ := except_bind_ok hvalue
    obtain ⟨v', hv', hunfolds⟩ := value_unfolds hnode hcount hne hpos hvalues
    cases hv'.symm.trans hv
    exact hunfolds ks w hks
  axisless hnone v hv := by
    rw [value_array hnode, hnone] at hv
    obtain ⟨values, -, hv⟩ := except_bind_ok hv
    cases hv

/-- Indexing an array is row-major. Whatever whole numbers the axes lie between, indexes are accepted when
there is one whole number for each axis and it lies on it, and are refused otherwise: with a typing problem,
unless the message would have to show a number that is too long for a text. The places of the elements are
those below their number, each taken once, in the order of the indexes. In a cell with as many parts, indexes
lead to a part; and where every axis has a length the value of the cell shows the values of the parts just
where the indexes say, if there is an axis at all. In every memory that comes about, an array has so many
parts and at least one axis, and no indexes are accepted that lead to no part. -/
theorem indexing_is_row_major (bounds : List (Int × Int)) :
    RowMajor bounds ∧
    (∀ g t element parts, g.node t = .array element (axesOf bounds) → parts.length = volume bounds →
      Indexed g bounds t parts) ∧
    ∀ types m, Session.Arises types m → ∀ here c, m.cellAt? here = some c →
      (∀ element axes, types.graph.node c.type = .array element axes → ∃ parts ends,
        c = .array c.type parts ∧ axes = axesOf ends ∧ ends ≠ [] ∧ parts.length = volume ends) ∧
      ∀ indexes, Run.element types.graph here c indexes ≠ .error (.misuse .noSuchPart) := by
  refine ⟨rowMajor bounds, fun g t element parts => indexed, fun types m harises here c hc => ?_⟩
  have hshaped := harises.wellBuilt.shaped.cellAt? hc
  have hparts {element : TypeId} {axes : List Types.Axis}
      (hnode : types.graph.node c.type = .array element axes) :=
    hshaped.array_parts harises.sound.graph hnode
  refine ⟨fun element axes hnode => hparts hnode, fun indexes hmissing => ?_⟩
  rcases hnode : types.graph.node c.type with _ | _ | _ | _ | _ | ⟨element, axes⟩ | _ | _ | _
  case array =>
    obtain ⟨parts, ends, hcell, rfl, -, hcount⟩ := hparts hnode
    rcases hflat : Types.flatten (axesOf ends) indexes with e | k
    · rw [Run.element, hnode] at hmissing
      dsimp only at hmissing
      rw [hflat] at hmissing
      cases hmissing
      rcases (rowMajor ends).refuses indexes _ hflat with ⟨_, he⟩ | ⟨he, -⟩ <;> cases he
    · obtain ⟨is, hwhole, hin, -⟩ := Types.flatten_ok_iff.1 hflat
      obtain ⟨part, -, hok⟩ := element_inside hnode hcount hwhole hin here
      rw [← hcell, hmissing] at hok
      cases hok
  all_goals
    rw [Run.element, hnode] at hmissing
    cases hmissing

/-- An index that is too long for a text lies on no short axis, and is refused without a typing problem. -/
theorem overlong_index_refused :
    ∃ indexes, (∀ is, Types.Wholes indexes is → ¬Inside [(0, 2)] is) ∧
      ∀ problem, Types.flatten (axesOf [(0, 2)]) indexes ≠ .error (.typing problem) := by
  obtain ⟨n, hn, hlong⟩ : ∃ n : Nat, 2 ≤ n ∧ Number.wholeText? n = none := by
    refine ⟨Number.tenTo Number.longestNumeral + 2, Nat.le_add_left 2 _, ?_⟩
    rw [Number.wholeText?, Int.natAbs_natCast, if_neg (Nat.not_lt.2 (Nat.le_add_right _ 2))]
  have hdisplay : (Value.int n).plain = .error .numeral := by
    rw [Value.plain, Value.display, hlong]
    · rfl
    all_goals simp
  refine ⟨[.int n], fun is hwhole hin => ?_, fun problem => ?_⟩
  · cases hin with
    | cons hi _ =>
      cases hwhole with
      | cons hv _ =>
        cases hv
        omega
  · have hrefused : Types.flatten (axesOf [(0, 2)]) [.int n] = Types.refused (.int n) (0, 2) := by
      rw [Types.flatten_wholes (.cons rfl .nil) rfl]
      change Types.flattenFrom _ _ [(Value.int n, Types.axisOf (0, 2))] = _
      rw [Types.flattenFrom_cons rfl, if_neg (by omega)]
    rw [hrefused, Types.refused, hdisplay]
    intro h
    cases h

/-- A grid of two rows and two columns, which are not counted from zero. -/
def gridTypes : Graph := ⟨#[.int, .array 0 (axesOf [(1, 3), (-1, 1)])]⟩

def gridParts : List Cell :=
  [5, 6, 7, 8].map fun i : Nat => .leaf ⟨.stack, i⟩ 0 (.int i)

theorem grid_indexed :
    (∃ part, gridParts[2]? = some part ∧ Run.element gridTypes ⟨.stack "a", []⟩ (.array 1 gridParts)
      [.int 2, .int (-1)] = .ok (⟨.stack "a", [2]⟩, part)) ∧
    ∃ v, (Cell.array 1 gridParts).value gridTypes = .ok v ∧ dig v [1, 0] = some (.int 7) := by
  have hindexed := (indexing_is_row_major [(1, 3), (-1, 1)]).2.1 gridTypes 1 0 gridParts rfl rfl
  have hin : Inside [(1, 3), (-1, 1)] [2, -1] := .cons (by decide) (.cons (by decide) .nil)
  refine ⟨hindexed.reaches _ _ _ (.cons rfl (.cons rfl .nil)) hin, _, rfl, ?_⟩
  exact (hindexed.shows (by simp) (by decide) _ rfl [1, 0] (.int 7) rfl).2 ⟨[2, -1], hin, rfl, _, rfl, rfl⟩

end Main

end Chalkboard.Memory
