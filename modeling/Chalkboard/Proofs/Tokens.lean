import Chalkboard.Reading.Program

/-! Tokens at the start of a text. A word ends where a blank or a semicolon stands, whatever terminals are
looked for. So what is read of a word does not depend on the text behind it, and it is enough to know
what each word is read as when it stands alone. -/

namespace Chalkboard.Reading

def stops : List Char := [' ', '\t', '\x0c', '\r', '\n', ';']

/-- A text behind a word of which nothing belongs to the word. -/
def Parted (rest : List Char) : Prop := ∀ c ∈ rest.head?, c ∈ stops

def carry (rest : List Char) (found : List Char × List Char) : List Char × List Char :=
  (found.1, found.2 ++ rest)

section Match

variable {rest : List Char} {p : Char → Bool}

theorem Parted.nil : Parted [] := by
  intro c hc
  cases hc

variable {c : Char}

theorem Parted.cons (hc : c ∈ stops) (cs : List Char) : Parted (c :: cs) := by
  intro d hd
  cases hd
  exact hc

theorem Parted.none (h : Parted rest) (hp : stops.any p = false) : ∀ c ∈ rest.head?, p c = false := by
  intro c hc
  have hnone := List.any_eq_false.1 hp c (h c hc)
  rwa [Bool.not_eq_true] at hnone

theorem takeWhile_parted (h : Parted rest) (hp : stops.any p = false) (w : List Char) :
    (w ++ rest).takeWhile p = w.takeWhile p := by
  induction w with
  | nil =>
    cases rest with
    | nil => rfl
    | cons c cs => simp [h.none hp c rfl]
  | cons c w ih => simp [List.takeWhile_cons, ih]

theorem dropWhile_parted (h : Parted rest) (hp : stops.any p = false) (w : List Char) :
    (w ++ rest).dropWhile p = w.dropWhile p ++ rest := by
  induction w with
  | nil =>
    cases rest with
    | nil => rfl
    | cons c cs => simp [h.none hp c rfl]
  | cons c w ih =>
    simp only [List.cons_append, List.dropWhile_cons, ih]
    split <;> rfl

def isWhole (text : List Char) : Bool := text.all fun c => !stops.contains c

theorem fixed_append (h : Parted rest) {text : List Char} (htext : isWhole text = true)
    (w : List Char) : fixed text (w ++ rest) = (fixed text w).map (carry rest) := by
  induction text generalizing w with
  | nil => cases w <;> rfl
  | cons t text ih =>
    simp only [isWhole, List.all_cons, Bool.and_eq_true, Bool.not_eq_true', List.contains_eq_mem,
      decide_eq_false_iff_not] at htext
    obtain ⟨ht, htext⟩ := htext
    have ih := ih (by simpa [isWhole] using htext)
    cases w with
    | nil =>
      cases rest with
      | nil => rfl
      | cons c cs =>
        have hne : t ≠ c := fun e => ht (e ▸ h c rfl)
        simp [fixed, hne]
    | cons c w =>
      simp only [List.cons_append, fixed, ih]
      split
      · simp only [Option.map_map]
        rfl
      · rfl

theorem oneOf_append (h : Parted rest) {texts : List String}
    (htexts : texts.all (isWhole ·.toList) = true) (w : List Char) :
    oneOf texts (w ++ rest) = (oneOf texts w).map (carry rest) := by
  induction texts with
  | nil => rfl
  | cons t texts ih =>
    rw [List.all_cons, Bool.and_eq_true] at htexts
    have ih := ih htexts.2
    unfold oneOf at ih ⊢
    rw [List.findSome?_cons, List.findSome?_cons, fixed_append h htexts.1, ih]
    cases fixed t.toList w <;> rfl

theorem run_append (h : Parted rest) (first : Char → Bool) (hp : stops.any p = false) (c : Char)
    (w : List Char) : run first p (c :: w ++ rest) = (run first p (c :: w)).map (carry rest) := by
  simp only [List.cons_append, run, takeWhile_parted h hp, dropWhile_parted h hp]
  split <;> rfl

theorem digits_stops : stops.any isDigit = false := by decide

theorem digits_append (h : Parted rest) (w : List Char) :
    digits (w ++ rest) = (digits w).map (carry rest) := by
  cases w with
  | cons c w => exact run_append h isDigit digits_stops c w
  | nil =>
    cases rest with
    | nil => rfl
    | cons c cs => simp [digits, run, h.none digits_stops c rfl]

theorem exponent_append (h : Parted rest) (w : List Char) :
    exponent (w ++ rest) = (exponent w).map (carry rest) := by
  match w with
  | [] =>
    cases rest with
    | nil => rfl
    | cons c cs =>
      have he := h.none (p := fun c => c == 'e' || c == 'E') (by decide) c rfl
      cases cs <;> simp [exponent, he]
  | [e] =>
    cases rest with
    | nil => rfl
    | cons c cs =>
      have hs := h.none (p := fun c => c == '+' || c == '-') (by decide) c rfl
      have hd : digits (c :: cs) = none := digits_append h []
      simp [exponent, hs, hd]
  | e :: s :: w =>
    have hs := digits_append h (s :: w)
    rw [List.cons_append] at hs
    simp only [List.cons_append, exponent, digits_append h w, hs]
    split
    · split <;> (simp only [Option.map_map]; rfl)
    · rfl

theorem exponentOrNot_append (h : Parted rest) (before w : List Char) :
    exponentOrNot before (w ++ rest) = carry rest (exponentOrNot before w) := by
  unfold exponentOrNot
  rw [exponent_append h]
  cases exponent w <;> rfl

theorem realNumber_append (h : Parted rest) (w : List Char) :
    realNumber (w ++ rest) = (realNumber w).map (carry rest) := by
  unfold realNumber
  simp only [takeWhile_parted h digits_stops, dropWhile_parted h digits_stops]
  rcases hd : w.dropWhile isDigit with _ | ⟨c, d⟩
  · have he : exponent rest = none := exponent_append h []
    have hempty : exponent [] = none := rfl
    have hdot : ∀ r, rest ≠ '.' :: r := by
      rintro r rfl
      exact absurd (h '.' rfl) (by decide)
    rcases w.takeWhile isDigit with _ | ⟨c, whole⟩
    · simp
    · simp [he, hempty]
  -- The point, if there is one, belongs to the word.
  · by_cases hc : c = '.'
    · subst hc
      have htake := takeWhile_parted h digits_stops d
      have hdrop := dropWhile_parted h digits_stops d
      rcases w.takeWhile isDigit with _ | ⟨c, whole⟩
      · simp only [List.cons_append, digits_append h, Option.map_map]
        congr 1
        funext x
        exact exponentOrNot_append h _ _
      · simp only [List.cons_append, htake, hdrop, exponentOrNot_append h, Option.map_some]
    · have he := exponent_append h (c :: d)
      rw [List.cons_append] at he
      rcases w.takeWhile isDigit with _ | ⟨c', whole⟩
      · simp [hc]
      · simp [hc, he, carry, Function.comp_def]

theorem separators_solid (hc : c ∉ stops) (w : List Char) : separators (c :: w) = none := by
  have hsemicolon : c ≠ ';' := fun e => hc (e ▸ by decide)
  have hline : c ≠ '\n' := fun e => hc (e ▸ by decide)
  have hreturn : c ≠ '\r' := fun e => hc (e ▸ by decide)
  simp [separators, lineEnds, hsemicolon, hline, hreturn]

theorem word_whole (w : Word) : isWhole w.text.toList = true := by
  cases w <;> decide

theorem symbol_whole (s : Symbol) : isWhole s.text.toList = true := by
  cases s <;> decide

theorem nameChars_stops : stops.any isNameChar = false := by decide

theorem match?_append (h : Parted rest) (hc : c ∉ stops) (w : List Char) (t : Terminal) :
    t.match? (c :: w ++ rest) = (t.match? (c :: w)).map (carry rest) := by
  cases t with
  | real => exact realNumber_append h (c :: w)
  | int => exact digits_append h (c :: w)
  | anyName => exact run_append h _ nameChars_stops c w
  | lowerName | variableName => exact run_append h (fun c => isLower c || c == '_') nameChars_stops c w
  | constantName | upperName => exact run_append h _ nameChars_stops c w
  | separator =>
    have hnone := separators_solid hc
    simp [Terminal.match?, hnone]
  | char => exact run_append h (· != '\n') rfl c w
  | finish => rfl
  | word k => exact oneOf_append h (by simpa using word_whole k) _
  | symbol s => exact oneOf_append h (by simpa using symbol_whole s) _
  | basicType | procedure | comparison | junction | equality | factor | term | unary =>
    exact oneOf_append h (by decide) _

theorem firstMatch_append (h : Parted rest) (hc : c ∉ stops) (w : List Char)
    (accepts : List Terminal) :
    firstMatch accepts (c :: w ++ rest) = firstMatch accepts (c :: w) := by
  unfold firstMatch
  congr 1
  funext t
  rw [match?_append h hc, Option.map_map]
  rfl

end Match

section Skip

variable {rest gap w : List Char} {look : Bool}

/-- The start of a word: neither a stop nor a comment. -/
def isSolid : List Char → Bool
  | [] => false
  | c :: cs => !stops.contains c && !(c == '/' && cs.head? == some '/')

theorem not_stop_of_solid {c : Char} {cs : List Char} (h : isSolid (c :: cs) = true) : c ∉ stops := by
  simp only [isSolid, Bool.and_eq_true, Bool.not_eq_true', List.contains_eq_mem,
    decide_eq_false_iff_not] at h
  exact h.1

/-- Blanks before a token. Where separators are looked for they do not open with a line end. -/
def isGap (look : Bool) (gap : List Char) : Bool :=
  gap.all isBlank && !(look && (gap.head? == some '\n' || gap.head? == some '\r'))

theorem blank_of_stop {c : Char} (hc : c ∉ stops) : isBlank c = false := by
  simp [stops] at hc
  simp [isBlank, hc]

theorem skipped_solid (hw : isSolid w) (h : Parted rest) :
    skipped look .nothing (w ++ rest) = [] ∧ skipped look .blanks (w ++ rest) = [] := by
  cases w with
  | nil => cases hw
  | cons c w =>
    simp only [isSolid, Bool.and_eq_true, Bool.not_eq_true', List.contains_eq_mem,
      decide_eq_false_iff_not] at hw
    obtain ⟨hc, hcomment⟩ := hw
    have hblank := blank_of_stop hc
    have hends : (c == '\n') = false ∧ (c == '\r') = false := by
      simp [stops] at hc
      simp [hc]
    have hslash : (c == '/' && (w ++ rest).head? == some '/') = false := by
      cases w with
      | cons d w => exact hcomment
      | nil =>
        cases rest with
        | nil => simp
        | cons d rest =>
          have hd : d ≠ '/' := by
            rintro rfl
            exact absurd (h '/' rfl) (by decide)
          simp [hd]
    constructor <;> simp only [List.cons_append, skipped, hblank, hends.1, hends.2, hslash] <;> simp

theorem skipped_blanks (hgap : gap.all isBlank) :
    skipped look .blanks (gap ++ w) = gap ++ skipped look .blanks w := by
  induction gap with
  | nil => rfl
  | cons c gap ih =>
    simp only [List.all_cons, Bool.and_eq_true] at hgap
    simp [skipped, hgap.1, ih hgap.2]

theorem skipped_gap (hgap : isGap look gap) (hopen : gap ≠ []) :
    skipped look .nothing (gap ++ w) = gap ++ skipped look .blanks w := by
  cases gap with
  | nil => exact absurd rfl hopen
  | cons c gap =>
    simp only [isGap, List.all_cons, Bool.and_eq_true, List.head?_cons, Option.some_beq_some,
      Bool.not_eq_true'] at hgap
    obtain ⟨⟨hc, hblanks⟩, hends⟩ := hgap
    have hrest : skipped look .blanks (gap ++ w) = gap ++ skipped look .blanks w := skipped_blanks hblanks
    simp only [List.cons_append, skipped, hc, hrest]
    split
    · simp_all
    · rfl

theorem skipped_word (hgap : isGap look gap) (hw : isSolid w) (h : Parted rest) :
    skipped look .nothing (gap ++ (w ++ rest)) = gap := by
  have hsolid : skipped look .nothing (w ++ rest) = [] ∧ skipped look .blanks (w ++ rest) = [] :=
    skipped_solid hw h
  cases gap with
  | nil => exact hsolid.1
  | cons c gap => rw [skipped_gap hgap (List.cons_ne_nil _ _), hsolid.2, List.append_nil]

theorem skipped_end (hgap : isGap look gap) : skipped look .nothing gap = gap := by
  cases gap with
  | nil => rfl
  | cons c gap =>
    have h := skipped_gap (w := []) hgap (List.cons_ne_nil _ _)
    simpa [skipped] using h

end Skip

/-- What stands first in a text for one who looks at it from a spot: the kind and text of the token, and
what is left behind it. -/
def tokenAt (spot : Spot) (cs : List Char) : Option (Terminal × String × List Char) :=
  match cs.drop (skipped (spot.accepts.contains .separator) .nothing cs).length with
  | [] => if spot.accepts.contains .finish then some (.finish, "", []) else none
  | c :: cs => (firstMatch spot.accepts (c :: cs)).map fun (kind, text) =>
      (kind, String.ofList text, (c :: cs).drop text.length)

/-- A word that is read as one token of a kind. -/
def Lexes (spot : Spot) (word : String) (kind : Terminal) : Prop :=
  isSolid word.toList = true ∧ firstMatch spot.accepts word.toList = some (kind, word.toList)

instance (spot : Spot) (word : String) (kind : Terminal) : Decidable (Lexes spot word kind) :=
  inferInstanceAs (Decidable (_ ∧ _))

/-- A word of which the front is read as one token of a kind, with some of the word left behind it. -/
def Cuts (spot : Spot) (front : String) (left : List Char) (kind : Terminal) : Prop :=
  isSolid (front.toList ++ left) = true ∧
    firstMatch spot.accepts (front.toList ++ left) = some (kind, front.toList)

instance (spot : Spot) (front : String) (left : List Char) (kind : Terminal) :
    Decidable (Cuts spot front left kind) :=
  inferInstanceAs (Decidable (_ ∧ _))

variable {gap rest : List Char} {kind : Terminal} {spot : Spot} {word : String}

theorem tokenAt_cut {front : String} {left : List Char}
    (hgap : isGap (spot.accepts.contains .separator) gap) (hw : Cuts spot front left kind)
    (h : Parted rest) :
    tokenAt spot (gap ++ (front.toList ++ left ++ rest)) = some (kind, front, left ++ rest) := by
  obtain ⟨hsolid, hfirst⟩ := hw
  unfold tokenAt
  rw [skipped_word hgap hsolid h, List.drop_left]
  rcases hword : front.toList ++ left with _ | ⟨c, cs⟩
  · rw [hword] at hsolid
    cases hsolid
  · rw [hword] at hsolid hfirst
    have happend := firstMatch_append h (not_stop_of_solid hsolid) cs spot.accepts
    simp only [List.cons_append] at happend ⊢
    rw [happend, hfirst, Option.map_some, ← List.cons_append, ← hword, List.append_assoc, List.drop_left,
      String.ofList_toList]

theorem cuts_nil : Cuts spot word [] kind ↔ Lexes spot word kind := by
  rw [Cuts, List.append_nil, Lexes]

theorem Cuts.lexes (h : Cuts spot word [] kind) : Lexes spot word kind := cuts_nil.1 h

theorem tokenAt_word
    (hgap : isGap (spot.accepts.contains .separator) gap) (hw : Lexes spot word kind)
    (h : Parted rest) : tokenAt spot (gap ++ (word.toList ++ rest)) = some (kind, word, rest) := by
  simpa only [List.append_nil, List.nil_append] using tokenAt_cut hgap (cuts_nil.2 hw) h

theorem cut_token {left : List Char} (hcut : Cuts spot word left kind) (h : Parted rest) :
    tokenAt spot (word.toList ++ left ++ rest) = some (kind, word, left ++ rest) := by
  have hgap : isGap (spot.accepts.contains .separator) [] = true := by simp [isGap]
  exact tokenAt_cut hgap hcut h

theorem tokenAt_front
    (hw : Lexes spot word kind) (h : Parted rest) :
    tokenAt spot (word.toList ++ rest) = some (kind, word, rest) := by
  simpa only [List.append_nil, List.nil_append] using cut_token (cuts_nil.2 hw) h

theorem tokenAt_finish
    (hgap : isGap (spot.accepts.contains .separator) gap) (hspot : spot.accepts.contains .finish) :
    tokenAt spot gap = some (.finish, "", []) := by
  unfold tokenAt
  rw [skipped_end hgap, List.drop_length]
  simp only [hspot, if_true]

/-- Words one behind the other, with a blank before each of them or with none. -/
def strung (blank : Bool) (words : List String) : List Char :=
  words.flatMap fun w => (bif blank then [' '] else []) ++ w.toList

def spaced (words : List String) : List Char := strung true words

section Spaced

variable {rest : List Char}

theorem strung_append (blank : Bool) (words words' : List String) :
    strung blank (words ++ words') = strung blank words ++ strung blank words' := List.flatMap_append

theorem Cuts.first (blank : Bool) (words : List String) (h : Cuts spot word (strung blank words ++ rest) kind) :
    tokenAt spot (strung blank (word :: words) ++ rest) = some (kind, word, strung blank words ++ rest) := by
  have hgap (look : Bool) : isGap look (bif blank then [' '] else []) := by cases look <;> cases blank <;> decide
  simpa [strung] using tokenAt_cut (hgap _) h .nil

@[simp] theorem spaced_nil : spaced [] = [] := rfl

theorem spaced_cons (w : String) (words : List String) :
    spaced (w :: words) = ' ' :: (w.toList ++ spaced words) := rfl

@[simp] theorem spaced_append (words words' : List String) :
    spaced (words ++ words') = spaced words ++ spaced words' := strung_append true words words'

theorem parted_spaced (h : Parted rest) (words : List String) : Parted (spaced words ++ rest) := by
  cases words with
  | nil => exact h
  | cons w words => exact .cons (by decide) _

theorem tokenAt_spaced {spot : Spot} {word : String} {kind : Terminal} (hw : Lexes spot word kind)
    (words : List String) (h : Parted rest) :
    tokenAt spot (spaced (word :: words) ++ rest) = some (kind, word, spaced words ++ rest) := by
  have hgap (look : Bool) : isGap look [' '] := by cases look <;> decide
  simpa [spaced_cons] using tokenAt_word (hgap _) hw (parted_spaced h words)

theorem length_spaced (words : List String) : words.length ≤ (spaced words).length := by
  induction words with
  | nil => exact Nat.le_refl _
  | cons w words ih =>
    simp only [spaced_cons, List.length_cons, List.length_append]
    omega

end Spaced

/-- The cursor looks at a token of a kind, and a text is left behind it. -/
structure At (c : Cursor) (kind : Terminal) (text : String) (rest : List Char) : Prop where
  kind : c.look.kind = kind
  text : c.look.text = text
  rest : c.source.rest = rest

theorem Source.past_rest (s : Source) (cs : List Char) : (s.past cs).rest = s.rest.drop cs.length := by
  induction cs generalizing s with
  | nil => rfl
  | cons c cs ih =>
    rw [Source.past, ih, List.drop_drop, List.length_cons, Nat.add_comm]

theorem next_of_token {s : Source} {text : String}
    (h : tokenAt spot s.rest = some (kind, text, rest)) (before : Option Token) :
    ∃ c, s.next spot before = .ok c ∧ At c kind text rest := by
  unfold tokenAt at h
  rw [← Source.past_rest] at h
  dsimp only [Source.next]
  generalize s.past (skipped (spot.accepts.contains .separator) .nothing s.rest) = s' at h ⊢
  obtain ⟨cs, line, column⟩ := s'
  cases cs with
  | nil =>
    dsimp only at h ⊢
    split at h
    · rename_i hfinish
      cases h
      simp only [hfinish, if_true]
      refine ⟨_, rfl, ?_⟩
      exact ⟨rfl, rfl, rfl⟩
    · cases h
  | cons c cs =>
    dsimp only at h ⊢
    rcases hfirst : firstMatch spot.accepts (c :: cs) with _ | ⟨kind', text'⟩
    · rw [hfirst] at h
      cases h
    · rw [hfirst] at h
      cases h
      refine ⟨_, rfl, ?_⟩
      exact ⟨rfl, rfl, Source.past_rest _ _⟩

/-- Reading comes to its end, and what was read and where the cursor stands then have a property. -/
def Gets {α : Type} (m : Read α) (c : Cursor) (Q : α → Cursor → Prop) : Prop :=
  ∃ a c', m c = .ok (a, c') ∧ Q a c'

namespace Gets

variable {α β : Type} {c : Cursor} {P : α → Cursor → Prop} {Q : β → Cursor → Prop} {kind : Terminal}
  {text : String} {rest : List Char} {spot : Spot}

theorem pure {b : β} (h : Q b c) : Gets (Pure.pure b) c Q := ⟨b, c, rfl, h⟩

theorem bind {m : Read α} {k : α → Read β} (hm : Gets m c P) (hk : ∀ a c', P a c' → Gets (k a) c' Q) :
    Gets (m >>= k) c Q := by
  obtain ⟨a, c', hread, ha⟩ := hm
  obtain ⟨b, c'', hread', hb⟩ := hk a c' ha
  refine ⟨b, c'', ?_, hb⟩
  change (m c >>= fun x => k x.1 x.2) = _
  rw [hread]
  exact hread'

theorem mono {m : Read α} {P' : α → Cursor → Prop} (hm : Gets m c P) (h : ∀ a c', P a c' → P' a c') :
    Gets m c P' := by
  obtain ⟨a, c', hread, ha⟩ := hm
  exact ⟨a, c', hread, h a c' ha⟩

theorem look {k : Token → Read β} (hk : Gets (k c.look) c Q) : Gets (Reading.look >>= k) c Q := hk

theorem rounds {k : Nat → Read β} (hk : Gets (k (c.source.rest.length + 2)) c Q) :
    Gets (Reading.rounds >>= k) c Q := hk

theorem of_look {k : Token → Read β} (h : Gets (Reading.look >>= k) c Q) : Gets (k c.look) c Q := h

theorem lift {r : Except Fault α} {a : α} {k : α → Read β} (h : r = .ok a) (hk : Gets (k a) c Q) :
    Gets ((liftM r : Read α) >>= k) c Q := by
  subst h
  exact hk

theorem advanced (h : tokenAt spot c.source.rest = some (kind, text, rest)) :
    Gets (Reading.advance spot) c fun _ c' => At c' kind text rest := by
  obtain ⟨c', hnext, hat⟩ := next_of_token h (some c.look)
  refine ⟨(), c', ?_, hat⟩
  change (c.source.next spot (some c.look) >>= fun c' => Except.ok (c', c)) >>=
    (fun found => Except.ok ((), found.1)) = _
  rw [hnext]
  rfl

theorem advance {k : Unit → Read β} (h : tokenAt spot c.source.rest = some (kind, text, rest))
    (hk : ∀ c', At c' kind text rest → Gets (k ()) c' Q) : Gets (Reading.advance spot >>= k) c Q :=
  (advanced h).bind fun _ c' hat => hk c' hat

theorem expected {kind' : Terminal} {text' : String} {rest' : List Char} (hc : At c kind' text' rest')
    (h : tokenAt spot rest' = some (kind, text, rest)) :
    Gets (Reading.expect kind' spot) c fun t c' => t = c.look ∧ At c' kind text rest := by
  refine look ?_
  rw [hc.kind, beq_self_eq_true, if_pos rfl]
  exact advance (hc.rest ▸ h) fun c' hat => pure ⟨rfl, hat⟩

theorem expect {kind' : Terminal} {text' : String} {rest' : List Char} {k : Token → Read β}
    (hc : At c kind' text' rest') (h : tokenAt spot rest' = some (kind, text, rest))
    (hk : ∀ c', At c' kind text rest → Gets (k c.look) c' Q) :
    Gets (Reading.expect kind' spot >>= k) c Q := by
  refine (expected hc h).bind ?_
  rintro _ c' ⟨rfl, hat⟩
  exact hk c' hat

end Gets

/-- Reading fails, and the fault has a property. -/
def Fails {α : Type} (m : Read α) (c : Cursor) (P : Fault → Prop) : Prop :=
  ∃ fault, m c = .error fault ∧ P fault

section Fails

variable {α β : Type} {c : Cursor} {P : Fault → Prop} {Q : α → Cursor → Prop} {m : Read α} {k : α → Read β}

theorem Fails.bind (h : Fails m c P) : Fails (m >>= k) c P := by
  obtain ⟨fault, hread, hfault⟩ := h
  refine ⟨fault, ?_, hfault⟩
  change (m c >>= fun x => k x.1 x.2) = _
  rw [hread]
  rfl

theorem Gets.fails (hm : Gets m c Q) (hk : ∀ a c', Q a c' → Fails (k a) c' P) : Fails (m >>= k) c P := by
  obtain ⟨a, c', hread, ha⟩ := hm
  obtain ⟨fault, hread', hfault⟩ := hk a c' ha
  refine ⟨fault, ?_, hfault⟩
  change (m c >>= fun x => k x.1 x.2) = _
  rw [hread]
  exact hread'

theorem Fails.look {k : Token → Read β} (h : Fails (k c.look) c P) : Fails (Reading.look >>= k) c P := h

theorem Fails.rounds {k : Nat → Read β} (h : Fails (k (c.source.rest.length + 2)) c P) :
    Fails (Reading.rounds >>= k) c P := h

theorem Fails.lift {r : Except Fault α} {fault : Fault} (h : r = .error fault) (hfault : P fault) :
    Fails ((liftM r : Read α) >>= k) c P := by
  subst h
  exact ⟨fault, rfl, hfault⟩

end Fails

end Chalkboard.Reading
