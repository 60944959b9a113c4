import LineBasic.Proofs.Reloading

/-!
# Numbers that are given out are new

A line with a dot and a line without a number get a number past the highest one that the listing knows.
That highest number grows with every kind of line, stays when lines are deleted, and starts again with
the listing. Main statement: however a listing came about, no line in it has a higher number, so that
a number given out is never the number of another line; and every line that came with a number or was
given one for its dot starts with exactly the number it has.
-/

namespace LineBasic.Listing

set_option autoImplicit false

/-- What can be done to a listing. -/
inductive Edit where
  /-- A line; one with neither a dot nor a number may be refused. -/
  | place (line : List Char) (numberedOnly : Bool)
  | load (source : String)
  | clear

namespace Edit

def apply (l : Listing) : Edit → Listing
  | place line true => l.type line
  | place line false => l.place line
  | load source => ofSource source
  | clear => {}

/-- The lines that are not refused if they have neither a dot nor a number. -/
def lines : Edit → List (List Char)
  | place _ true => []
  | place line false => [line]
  | load source => programLines source
  | clear => []

end Edit

/-- A line with neither a dot nor a number in front. -/
def IsPlain (line : List Char) : Prop :=
  line.head? ≠ some '.' ∧ leadingNumber? line = none

/-- All digits in front of a text together are the number; it may be written with zeros in front. -/
def StartsWith (n : Nat) (text : String) : Prop :=
  let digits := text.toList.takeWhile Char.isDigit
  digits ≠ [] ∧ Nat.ofDigitChars 10 digits 0 = n

theorem startsWith_of_leadingNumber? {line rest : List Char} {n : Nat}
    (h : leadingNumber? line = some (n, rest)) : StartsWith n (String.ofList line) := by
  simp only [leadingNumber?] at h
  split at h
  · cases h
  · rename_i hdigits
    simp only [Bool.or_eq_true, not_or, List.isEmpty_iff] at hdigits
    rw [StartsWith, String.toList_ofList]
    exact ⟨hdigits.1, congrArg Prod.fst (Option.some.inj h)⟩

theorem startsWith_toString (n : Nat) (rest : List Char) :
    StartsWith n (toString n ++ " " ++ String.ofList rest) := by
  have htext : (toString n ++ " " ++ String.ofList rest).toList =
      Nat.toDigits 10 n ++ ' ' :: rest := by
    simp
  rw [StartsWith, htext, takeWhile_toDigits]
  exact ⟨Nat.toDigits_ne_nil, Nat.ofDigitChars_toDigits (by decide) (by decide)⟩

/-! ### The three kinds of lines -/

section

variable (l : Listing) {line : List Char}

theorem apply_dot (rest : List Char) (numberedOnly : Bool) :
    Edit.apply l (.place ('.' :: rest) numberedOnly) = l.placeNext rest := by
  cases numberedOnly with
  | true => rfl
  | false => rfl

theorem apply_number {n : Nat} {rest : List Char} (h : leadingNumber? line = some (n, rest))
    (numberedOnly : Bool) : Edit.apply l (.place line numberedOnly) = l.placeAt n rest line := by
  have hdot : line.head? ≠ some '.' := by
    intro hdot
    obtain ⟨_, rfl⟩ := List.head?_eq_some_iff.1 hdot
    cases h
  have hplaced := placeNumbered?_of_ne_dot l hdot
  rw [h] at hplaced
  cases numberedOnly with
  | true => rw [Edit.apply, type, hplaced]; rfl
  | false => rw [Edit.apply, place, hplaced]; rfl

theorem apply_plain (h : IsPlain line) (numberedOnly : Bool) :
    Edit.apply l (.place line numberedOnly) = if numberedOnly then l else l.append line := by
  have hplaced := placeNumbered?_of_ne_dot l h.1
  rw [h.2] at hplaced
  cases numberedOnly with
  | true => rw [Edit.apply, type, hplaced]; rfl
  | false => rw [Edit.apply, place, hplaced]; rfl

end

theorem getElem?_placeAt (l : Listing) (n : Nat) (rest line : List Char) (k : Nat) :
    (l.placeAt n rest line).lines[k]? =
      if k = n then if rest = [] then none else some (String.ofList line) else l.lines[k]? := by
  by_cases hrest : rest = []
  · simp only [placeAt, hrest, List.isEmpty_nil, if_true, Std.TreeMap.getElem?_erase,
      Nat.compare_eq_eq, @eq_comm _ n]
  · simp only [placeAt, List.isEmpty_iff, hrest, if_false, Std.TreeMap.getElem?_insert,
      Nat.compare_eq_eq, @eq_comm _ n]

theorem kinds (line : List Char) :
    (∃ rest, line = '.' :: rest) ∨ (∃ n rest, leadingNumber? line = some (n, rest)) ∨
      IsPlain line := by
  by_cases hdot : line.head? = some '.'
  · exact .inl (List.head?_eq_some_iff.1 hdot)
  · cases hnumber : leadingNumber? line with
    | some found => exact .inr (.inl ⟨found.1, found.2, rfl⟩)
    | none => exact .inr (.inr ⟨hdot, hnumber⟩)

/-! ### What every edit keeps -/

/-- No number is past the last one that was given out, and the lines that do not start with their
number are `Known`. -/
structure Orderly (Known : List Char → Prop) (l : Listing) : Prop where
  bounded : ∀ n text, l.lines[n]? = some text → n ≤ l.last
  named : ∀ n text, l.lines[n]? = some text → StartsWith n text ∨ Known text.toList

namespace Orderly

variable {Known : List Char → Prop} {l : Listing}

theorem empty : Orderly Known {} := by
  have hnone (n : Nat) (text : String) : ({} : Listing).lines[n]? ≠ some text := by
    change (∅ : Std.TreeMap Nat String)[n]? ≠ some text
    rw [Std.TreeMap.getElem?_emptyc]
    nofun
  exact ⟨fun n text h => absurd h (hnone n text), fun n text h => absurd h (hnone n text)⟩

theorem insert (h : Orderly Known l) {n last : Nat} {text : String} (hlast : l.last ≤ last)
    (hn : n ≤ last) (htext : StartsWith n text ∨ Known text.toList) :
    Orderly Known ⟨l.lines.insert n text, last⟩ := by
  have hcases {k : Nat} {other : String} (hk : (l.lines.insert n text)[k]? = some other) :
      (n = k ∧ text = other) ∨ l.lines[k]? = some other := by
    rw [Std.TreeMap.getElem?_insert] at hk
    split at hk
    · rename_i heq
      exact .inl ⟨Nat.compare_eq_eq.1 heq, Option.some.inj hk⟩
    · exact .inr hk
  constructor
  · intro k other hk
    rcases hcases hk with ⟨rfl, -⟩ | hold
    · exact hn
    · exact Nat.le_trans (h.bounded k other hold) hlast
  · intro k other hk
    rcases hcases hk with ⟨rfl, rfl⟩ | hold
    · exact htext
    · exact h.named k other hold

theorem erase (h : Orderly Known l) (n : Nat) {last : Nat} (hlast : l.last ≤ last) :
    Orderly Known ⟨l.lines.erase n, last⟩ := by
  have hold {k : Nat} {text : String} (hk : (l.lines.erase n)[k]? = some text) :
      l.lines[k]? = some text := by
    rw [Std.TreeMap.getElem?_erase] at hk
    split at hk
    · cases hk
    · exact hk
  exact ⟨fun k text hk => Nat.le_trans (h.bounded k text (hold hk)) hlast,
    fun k text hk => h.named k text (hold hk)⟩

theorem placed (h : Orderly Known l) {line : List Char} {numberedOnly : Bool}
    (hknown : numberedOnly = false → IsPlain line → Known line) :
    Orderly Known (Edit.apply l (.place line numberedOnly)) := by
  obtain ⟨rest, rfl⟩ | ⟨n, rest, hnumber⟩ | hplain := kinds line
  · rw [apply_dot]
    exact h.insert (Nat.le_add_right _ _) (Nat.le_refl _) (.inl (startsWith_toString _ _))
  · rw [apply_number l hnumber, placeAt]
    split
    · exact h.erase n (Nat.le_max_left _ _)
    · exact h.insert (Nat.le_max_left _ _) (Nat.le_max_right _ _)
        (.inl (startsWith_of_leadingNumber? hnumber))
  · rw [apply_plain l hplain]
    cases numberedOnly with
    | true => exact h
    | false =>
      refine h.insert (Nat.le_succ _) (Nat.le_refl _) (.inr ?_)
      rw [String.toList_ofList]
      exact hknown rfl hplain

theorem foldl_place (h : Orderly Known l) {lines : List (List Char)}
    (hknown : ∀ line ∈ lines, IsPlain line → Known line) : Orderly Known (lines.foldl place l) := by
  induction lines generalizing l with
  | nil => exact h
  | cons line lines ih =>
    obtain ⟨hline, hlines⟩ := List.forall_mem_cons.1 hknown
    have hplaced : Orderly Known (Edit.apply l (.place line false)) := h.placed fun _ => hline
    exact ih hplaced hlines

theorem apply (h : Orderly Known l) {edit : Edit}
    (hknown : ∀ line ∈ edit.lines, IsPlain line → Known line) : Orderly Known (edit.apply l) := by
  cases edit with
  | place line numberedOnly =>
    refine h.placed ?_
    rintro rfl
    exact hknown line List.mem_cons_self
  -- loading forgets the listing, so it starts from an orderly one whatever there was
  | load source => exact empty.foldl_place hknown
  | clear => exact empty

theorem foldl_apply (h : Orderly Known l) {edits : List Edit}
    (hknown : ∀ edit ∈ edits, ∀ line ∈ edit.lines, IsPlain line → Known line) :
    Orderly Known (edits.foldl Edit.apply l) := by
  induction edits generalizing l with
  | nil => exact h
  | cons edit edits ih =>
    obtain ⟨hedit, hedits⟩ := List.forall_mem_cons.1 hknown
    exact ih (h.apply hedit) hedits

theorem toList_insert (h : Orderly Known l) {n : Nat} (hn : l.last < n) (text : String) :
    (l.lines.insert n text).toList = l.toList ++ [(n, text)] := by
  refine toList_insert_of_lt (fun e he => ?_) text
  have hfound := Std.TreeMap.mem_toList_iff_getElem?_eq_some.1 he
  exact Nat.lt_of_le_of_lt (h.bounded e.1 e.2 hfound) hn

end Orderly

/-- Lines under numbers that are given out are added to a listing at its end, and lines that come with
a number change the line of that number only. -/
theorem given_numbers_new (edits : List Edit) :
    let l := edits.foldl Edit.apply {}
    (∀ e ∈ l.toList, e.1 ≤ l.last) ∧
    (∀ e ∈ l.toList, StartsWith e.1 e.2 ∨
      IsPlain e.2.toList ∧ ∃ edit ∈ edits, e.2.toList ∈ edit.lines) ∧
    l.toList.Pairwise (fun e e' => e.1 < e'.1) ∧
    (∀ rest numberedOnly,
      let text := toString (l.last + 10) ++ " " ++ String.ofList (Text.trim rest)
      StartsWith (l.last + 10) text ∧
      (Edit.apply l (.place ('.' :: rest) numberedOnly)).toList =
        l.toList ++ [(l.last + 10, text)]) ∧
    (∀ line, IsPlain line →
      (Edit.apply l (.place line false)).toList = l.toList ++ [(l.last + 1, String.ofList line)] ∧
      Edit.apply l (.place line true) = l) ∧
    ∀ line n rest numberedOnly, leadingNumber? line = some (n, rest) →
      StartsWith n (String.ofList line) ∧
      (Edit.apply l (.place line numberedOnly)).lines[n]? =
        (if rest = [] then none else some (String.ofList line)) ∧
      ∀ k ≠ n, (Edit.apply l (.place line numberedOnly)).lines[k]? = l.lines[k]? := by
  intro l
  have horderly : Orderly (fun line => IsPlain line ∧ ∃ edit ∈ edits, line ∈ edit.lines) l :=
    Orderly.empty.foldl_apply fun edit hedit line hline hplain => ⟨hplain, edit, hedit, hline⟩
  have hfound {e : Nat × String} (he : e ∈ l.toList) : l.lines[e.1]? = some e.2 :=
    Std.TreeMap.mem_toList_iff_getElem?_eq_some.1 he
  refine ⟨fun e he => horderly.bounded _ _ (hfound he), fun e he => horderly.named _ _ (hfound he),
    Std.TreeMap.ordered_keys_toList.imp Nat.compare_eq_lt.1, ?_, ?_, ?_⟩
  · intro rest numberedOnly text
    rw [apply_dot]
    exact ⟨startsWith_toString _ _, horderly.toList_insert (Nat.lt_add_of_pos_right (by decide)) _⟩
  · intro line hplain
    rw [apply_plain l hplain, apply_plain l hplain]
    exact ⟨horderly.toList_insert (Nat.lt_succ_self _) _, rfl⟩
  · intro line n rest numberedOnly hnumber
    rw [apply_number l hnumber, getElem?_placeAt, if_pos rfl]
    refine ⟨startsWith_of_leadingNumber? hnumber, rfl, fun k hk => ?_⟩
    rw [getElem?_placeAt, if_neg hk]

/-- Line 100 is deleted, but its number is not given out again. -/
theorem given_numbers_new_deleted :
    let l := [Edit.load "x = 1\n007 print x", .place "100 end".toList true,
      .place "100".toList true].foldl Edit.apply {}
    l.toList = [(1, "x = 1"), (7, "007 print x")] ∧
    (Edit.apply l (.place ". y = 2".toList true)).toList =
      l.toList ++ [(110, "110 y = 2")] ∧
    (Edit.apply l (.place "7 end".toList true)).lines[1]? = some "x = 1" := by
  intro l
  obtain ⟨-, -, -, hdot, -, hnumber⟩ := given_numbers_new
    [Edit.load "x = 1\n007 print x", .place "100 end".toList true, .place "100".toList true]
  refine ⟨by decide +kernel, (hdot " y = 2".toList true).2, ?_⟩
  exact (hnumber "7 end".toList 7 "end".toList true (by decide)).2.2 1 (by decide)

end LineBasic.Listing
