import Chalkboard.Proofs.GrowingTypes
import Chalkboard.Proofs.Reals
import Chalkboard.Value.Sameness

/-! Equality of values. Values without parts have a mark, by which they are compared; lists are compared
item by item and records name by name. Being equal is transitive, and a value is equal to itself if no
undefined number stands in it. -/

namespace Chalkboard.Value

open Effects

/-- What a value without parts is compared by. -/
inductive Mark where
  | unknown
  | null
  | absent
  | number (units : Int ⊕ Bool)
  | text (s : String)
  | address (partition : Memory.Partition) (key : Int)
  | constant (owner : Nat) (name : String)
  deriving DecidableEq

/-- The mark of a value. Undefined numbers and unevaluated expressions have none. -/
def mark? : Value → Option Mark
  | .unknown => some .unknown
  | .null => some .null
  | .absent => some .absent
  | .text s => some (.text s)
  | .address a => some (.address a.partition (Memory.keyOf a.number))
  | .constant c => some (.constant c.owner c.name)
  | .bool b => ((Numeric.whole (if b then 1 else 0)).units?).map .number
  | .int i => ((Numeric.whole i).units?).map .number
  | .real x => ((Numeric.real x).units?).map .number
  | .lazy _ | .list _ | .record _ => none

def isSimple : Value → Bool
  | .list _ | .record _ => false
  | _ => true

theorem parts_induction {P : Value → Prop} (simple : ∀ v : Value, v.isSimple = true → P v)
    (list : ∀ vs : List Value, (∀ v ∈ vs, P v) → P (.list vs))
    (record : ∀ fields : List (String × Value), (∀ name v, (name, v) ∈ fields → P v) → P (.record fields))
    (v : Value) : P v := by
  refine @Value.rec P (fun vs => ∀ v ∈ vs, P v) (fun fields => ∀ name v, (name, v) ∈ fields → P v)
    (fun field => P field.2)
    (simple _ rfl) (simple _ rfl) (fun _ => simple _ rfl) (fun _ => simple _ rfl)
    (fun _ => simple _ rfl) (fun _ => simple _ rfl) (fun _ => simple _ rfl) (fun _ => simple _ rfl)
    (fun _ => simple _ rfl) (simple _ rfl) (fun vs ih => list vs ih) (fun fields ih => record fields ih)
    ?_ ?_ ?_ ?_ ?_ v
  · simp
  · intro v vs hv hvs
    simpa using ⟨hv, hvs⟩
  · simp
  · rintro ⟨name, v⟩ fields hv hfields name' v' hmem
    rcases List.mem_cons.1 hmem with heq | hmem
    · cases heq
      exact hv
    · exact hfields name' v' hmem
  · exact fun _ _ hv => hv

theorem number_inj {m n : Option (Int ⊕ Bool)} : m.map Mark.number = n.map Mark.number ↔ m = n :=
  Option.map_inj_right fun _ _ => Mark.number.inj

variable {u v w : Value} {vs ws : List Value}

theorem equal_simple (hv : v.isSimple = true) (w : Value) :
    v.equal w = .ok true ↔ v.mark?.isSome ∧ v.mark? = w.mark? := by
  cases v with
  | list | record => cases hv
  | text s => cases w <;> simp [equal, mark?, numeric?]
  | address a => cases w <;> simp [equal, mark?, numeric?, Memory.Address.same]
  | constant c => cases w <;> simp [equal, mark?, numeric?, Constant.same]
  | lazy | unknown | null | absent => cases w <;> simp [equal, mark?, numeric?]
  | bool | int | real =>
    cases w <;> simp [equal, mark?, numeric?, Numeric.order_eq_iff, number_inj, Option.isSome_iff_ne_none]

theorem equal_list :
    (list vs).equal w = .ok true ↔
      ∃ ws, w = .list ws ∧ vs.length = ws.length ∧ equalItems vs ws = .ok true := by
  cases w with
  | list ws =>
    rw [equal]
    by_cases hlength : vs.length = ws.length <;> simp [hlength]
  | _ => simp [equal, numeric?]

theorem equal_record {vs : List (String × Value)} :
    (record vs).equal w = .ok true ↔
      ∃ ws, w = .record ws ∧ vs.length = ws.length ∧ equalFields vs ws = .ok true := by
  cases w with
  | record ws =>
    rw [equal]
    by_cases hlength : vs.length = ws.length <;> simp [hlength]
  | _ => simp [equal, numeric?]

theorem both_ok {r rest : Except Misuse Bool} :
    (do if ← r then rest else return false) = .ok true ↔ r = .ok true ∧ rest = .ok true := by
  rcases r with _ | _ | _ <;> simp [bind, Except.bind, pure, Except.pure]

theorem equalItems_cons :
    equalItems (v :: vs) (w :: ws) = .ok true ↔ v.equal w = .ok true ∧ equalItems vs ws = .ok true := by
  rw [equalItems]
  exact both_ok

theorem equalItems_iff (vs ws : List Value) :
    equalItems vs ws = .ok true ↔ List.Forall₂ (fun v w => v.equal w = .ok true) vs ws := by
  induction vs generalizing ws with
  | nil => cases ws <;> simp [equalItems]
  | cons v vs ih =>
    cases ws with
    | nil => simp [equalItems]
    | cons w ws => rw [equalItems_cons, List.forall₂_cons, ih]

theorem fields_iff {test : Value → Value → Except Misuse Bool}
    {walk : List (String × Value) → List (String × Value) → Except Misuse Bool}
    (hnil : ∀ ws, walk [] ws = .ok true)
    (hcons : ∀ name v vs ws, walk ((name, v) :: vs) ws =
      (ws.lookup name).elim (.ok false) fun w => do if ← test v w then walk vs ws else return false)
    (vs ws : List (String × Value)) :
    walk vs ws = .ok true ↔
      ∀ name v, (name, v) ∈ vs → ∃ w, ws.lookup name = some w ∧ test v w = .ok true := by
  induction vs with
  | nil => simp [hnil]
  | cons field vs ih =>
    obtain ⟨name, v⟩ := field
    have hhead : walk ((name, v) :: vs) ws = .ok true ↔
        (∃ w, ws.lookup name = some w ∧ test v w = .ok true) ∧ walk vs ws = .ok true := by
      rw [hcons]
      cases ws.lookup name with
      | none => simp
      | some w => simpa using both_ok
    rw [hhead, ih]
    constructor
    · rintro ⟨hv, hrest⟩ name' v' hmem
      rcases List.mem_cons.1 hmem with heq | hmem
      · cases heq
        exact hv
      · exact hrest name' v' hmem
    · exact fun h => ⟨h name v (.head _), fun name' v' hmem => h name' v' (.tail _ hmem)⟩

theorem equalFields_iff (vs ws : List (String × Value)) :
    equalFields vs ws = .ok true ↔
      ∀ name v, (name, v) ∈ vs → ∃ w, ws.lookup name = some w ∧ v.equal w = .ok true := by
  refine fields_iff (fun ws => by rw [equalFields]) (fun name v vs ws => ?_) vs ws
  rw [equalFields]
  cases ws.lookup name <;> rfl

theorem simple_trans (hu : u.isSimple = true) (h : u.equal v = .ok true)
    (h' : v.equal w = .ok true) : u.equal w = .ok true := by
  obtain ⟨hsome, hmark⟩ := (equal_simple hu v).1 h
  have hv : v.isSimple = true := by
    rw [hmark] at hsome
    cases v with
    | list | record => cases hsome
    | _ => rfl
  exact (equal_simple hu w).2 ⟨hsome, hmark.trans ((equal_simple hv w).1 h').2⟩

theorem equal_trans (h : u.equal v = .ok true) (h' : v.equal w = .ok true) :
    u.equal w = .ok true := by
  induction u using parts_induction generalizing v w with
  | simple u hu => exact simple_trans hu h h'
  | list us ih =>
    obtain ⟨vs, rfl, hlength, hitems⟩ := equal_list.1 h
    obtain ⟨ws, rfl, hlength', hitems'⟩ := equal_list.1 h'
    refine equal_list.2 ⟨ws, rfl, hlength.trans hlength', ?_⟩
    rw [equalItems_iff] at hitems hitems' ⊢
    clear h h' hlength hlength'
    induction hitems generalizing ws with
    | nil => cases hitems'; exact .nil
    | @cons u v us vs huv hrest ihrest =>
      cases hitems' with
      | cons hvw hrest' =>
        exact .cons (ih u (.head _) huv hvw) (ihrest (fun u hu => ih u (.tail _ hu)) _ hrest')
  | record us ih =>
    obtain ⟨vs, rfl, hlength, hfields⟩ := equal_record.1 h
    obtain ⟨ws, rfl, hlength', hfields'⟩ := equal_record.1 h'
    refine equal_record.2 ⟨ws, rfl, hlength.trans hlength', ?_⟩
    rw [equalFields_iff] at hfields hfields' ⊢
    intro name u hu
    obtain ⟨v, hv, huv⟩ := hfields name u hu
    obtain ⟨w, hw, hvw⟩ := hfields' name v (Types.mem_of_lookup hv)
    exact ⟨w, hw, ih name u hu huv hvw⟩

/-- A value that is equal to itself: there is no undefined number in it, nothing unevaluated, and no
record with a name twice. -/
inductive Regular : Value → Prop
  | simple {v : Value} (hv : v.isSimple = true) (hmark : v.mark?.isSome = true) : Regular v
  | list {vs : List Value} (h : ∀ v ∈ vs, Regular v) : Regular (.list vs)
  | record {fields : List (String × Value)} (hnames : (fields.map (·.1)).Nodup)
      (h : ∀ name v, (name, v) ∈ fields → Regular v) : Regular (.record fields)

theorem Regular.equal_self (h : v.Regular) : v.equal v = .ok true := by
  induction h with
  | simple hv hmark => exact (equal_simple hv _).2 ⟨hmark, rfl⟩
  | @list vs _ ih => exact equal_list.2 ⟨vs, rfl, rfl, (equalItems_iff vs vs).2 (List.forall₂_same.2 ih)⟩
  | @record fields hnames _ ih =>
    refine equal_record.2 ⟨fields, rfl, rfl, (equalFields_iff fields fields).2 fun name v hv => ?_⟩
    exact ⟨v, Types.lookup_of_mem hnames hv, ih name v hv⟩

section Sameness

variable {sameConstant : Constant → Constant → Bool} {inside : Bool}

theorem sameItems_iff (vs ws : List Value) :
    sameItems sameConstant vs ws = .ok true ↔
      List.Forall₂ (fun v w => v.sameAs sameConstant true w = .ok true) vs ws := by
  induction vs generalizing ws with
  | nil => cases ws <;> simp [sameItems]
  | cons v vs ih =>
    cases ws with
    | nil => simp [sameItems]
    | cons w ws => rw [sameItems, both_ok, List.forall₂_cons, ih]

theorem sameFields_iff (vs ws : List (String × Value)) :
    sameFields sameConstant vs ws = .ok true ↔ ∀ name v, (name, v) ∈ vs →
      ∃ w, ws.lookup name = some w ∧ v.sameAs sameConstant true w = .ok true := by
  refine fields_iff (fun ws => by rw [sameFields]) (fun name v vs ws => ?_) vs ws
  rw [sameFields]
  cases ws.lookup name <;> rfl

theorem sameAs_list {vs : List Value} {w : Value} :
    (list vs).sameAs sameConstant inside w = .ok true ↔
      ∃ ws, w = .list ws ∧ vs.length = ws.length ∧ sameItems sameConstant vs ws = .ok true := by
  cases w with
  | list ws =>
    rw [sameAs]
    by_cases hlength : vs.length = ws.length <;> simp [hlength]
  | _ => simp [sameAs, equal, numeric?]

theorem sameAs_record {vs : List (String × Value)} {w : Value} :
    (record vs).sameAs sameConstant inside w = .ok true ↔
      ∃ ws, w = .record ws ∧ vs.length = ws.length ∧ sameFields sameConstant vs ws = .ok true := by
  cases w with
  | record ws =>
    rw [sameAs]
    by_cases hlength : vs.length = ws.length <;> simp [hlength]
  | _ => simp [sameAs, equal, numeric?]

end Sameness

mutual

def constantFree : Value → Bool
  | .constant _ => false
  | .list items => constantFreeItems items
  | .record fields => constantFreeFields fields
  | _ => true

def constantFreeItems : List Value → Bool
  | [] => true
  | v :: vs => v.constantFree && constantFreeItems vs

def constantFreeFields : List (String × Value) → Bool
  | [] => true
  | (_, v) :: fields => v.constantFree && constantFreeFields fields

end

theorem constantFreeItems_iff (vs : List Value) :
    constantFreeItems vs = true ↔ ∀ v ∈ vs, v.constantFree = true := by
  induction vs with
  | nil => simp [constantFreeItems]
  | cons v vs ih => simp [constantFreeItems, ih]

theorem constantFreeFields_iff (fields : List (String × Value)) :
    constantFreeFields fields = true ↔ ∀ name v, (name, v) ∈ fields → v.constantFree = true := by
  induction fields with
  | nil => simp [constantFreeFields]
  | cons field fields ih =>
    obtain ⟨name, v⟩ := field
    simp only [constantFreeFields, Bool.and_eq_true, ih, List.mem_cons]
    constructor
    · rintro ⟨hv, hrest⟩ name' v' (heq | hmem)
      · cases heq
        exact hv
      · exact hrest name' v' hmem
    · exact fun h => ⟨h name v (.inl rfl), fun name' v' hmem => h name' v' (.inr hmem)⟩

theorem forall₂_congr_left {P Q : Value → Value → Prop}
    (h : ∀ v ∈ vs, ∀ w, P v w ↔ Q v w) : List.Forall₂ P vs ws ↔ List.Forall₂ Q vs ws := by
  induction vs generalizing ws with
  | nil => cases ws <;> simp
  | cons v vs ih =>
    cases ws with
    | nil => simp
    | cons w ws =>
      rw [List.forall₂_cons, List.forall₂_cons, h v (.head _),
        ih fun v' hv' => h v' (.tail _ hv')]

theorem Regular.sameAs_iff (h : v.Regular) (inside : Bool) (w : Value) :
    v.sameAs (fun _ _ => false) inside w = .ok true ↔ v.equal w = .ok true ∧ v.constantFree = true := by
  induction h generalizing inside w with
  | @simple v hv hmark =>
    cases v with
    | list | record => cases hv
    | constant c => cases w <;> simp [sameAs, constantFree, equal, numeric?]
    | real x =>
      cases w with
      | real y =>
        have hdefined : x.isNaN = false := by
          rw [← Bool.not_eq_true, Number.isNaN_iff]
          simpa [mark?, Numeric.units?, Option.isSome_iff_ne_none] using hmark
        simp only [sameAs, constantFree, equal, numeric?, hdefined, Bool.and_false, Bool.false_and,
          Bool.or_false, Except.ok.injEq, Number.beq_iff_compare, Number.compare_eq_iff, beq_iff_eq,
          Numeric.real_order_eq_iff, and_true]
      | _ => simp [sameAs, constantFree]
    | _ => simp [sameAs, constantFree]
  | @list vs _ ih =>
    simp only [sameAs_list, equal_list, constantFree, constantFreeItems_iff, sameItems_iff, equalItems_iff]
    rw [← exists_and_right]
    refine exists_congr fun ws => ?_
    rw [forall₂_congr_left fun v hv w => (ih v hv true w).trans and_comm, List.forall₂_and_left]
    tauto
  | @record fields hnames _ ih =>
    simp only [sameAs_record, equal_record, constantFree, constantFreeFields_iff, sameFields_iff,
      equalFields_iff]
    rw [← exists_and_right]
    refine exists_congr fun ws => ?_
    constructor
    · rintro ⟨rfl, hlength, hsame⟩
      refine ⟨⟨rfl, hlength, fun name v hv => ?_⟩, fun name v hv => ?_⟩
      · obtain ⟨w, hw, hvw⟩ := hsame name v hv
        exact ⟨w, hw, ((ih name v hv true w).1 hvw).1⟩
      · obtain ⟨w, -, hvw⟩ := hsame name v hv
        exact ((ih name v hv true w).1 hvw).2
    · rintro ⟨⟨rfl, hlength, hequal⟩, hfree⟩
      refine ⟨rfl, hlength, fun name v hv => ?_⟩
      obtain ⟨w, hw, hvw⟩ := hequal name v hv
      exact ⟨w, hw, (ih name v hv true w).2 ⟨hvw, hfree name v hv⟩⟩

end Chalkboard.Value
