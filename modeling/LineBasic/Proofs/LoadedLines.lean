import LineBasic.Listing
import Mathlib.Data.List.Dedup
import Mathlib.Data.List.Induction
import Mathlib.Data.List.Perm.Basic

/-!
# What becomes of the lines of a text

The lines of a text enter a listing one after the other. A line without a number of its own gets one
past all numbers so far, so it never replaces another line; a line that comes with its number replaces
whatever has that number. Main statement: if the lines that come with numbers have different ones,
none is a number alone and no number that a line is given is too large, then the listing holds every
line exactly when none of them takes the number that a line before it was given.
-/

namespace LineBasic.Listing

set_option autoImplicit false

/-- What a line becomes in a listing. -/
structure Placed where
  number : Nat
  text : String
  /-- Whether the line came with its number. -/
  numbered : Bool
deriving DecidableEq

/-- The highest number given out before the line is `last`. A dot gives way to the number. -/
def Placed.ofLine (last : Nat) (line : List Char) : Placed :=
  match line with
  | '.' :: rest =>
    ⟨last + 10, toString (last + 10) ++ " " ++ String.ofList (Text.trim rest), false⟩
  | _ =>
    match leadingNumber? line with
    | some (n, _) => ⟨n, String.ofList line, true⟩
    | none => ⟨last + 1, String.ofList line, false⟩

/-- What the lines of a text become, from the first to the last. -/
def placed : Nat → List (List Char) → List Placed
  | _, [] => []
  | last, line :: lines =>
    Placed.ofLine last line :: placed (max last (Placed.ofLine last line).number) lines

/-- No line takes the number that a line before it was given. -/
def Spared (ps : List Placed) : Prop :=
  ps.Pairwise fun p q => p.numbered = false → q.numbered = true → p.number ≠ q.number

instance (ps : List Placed) : Decidable (Spared ps) :=
  inferInstanceAs (Decidable (ps.Pairwise _))

/-- The line is not a number alone, which would delete a line. -/
def HasText (line : List Char) : Prop :=
  (leadingNumber? line).map Prod.snd ≠ some []

instance (line : List Char) : Decidable (HasText line) :=
  inferInstanceAs (Decidable (_ ≠ _))

/-- A text of which no line should be lost: its lines come with different numbers, none is a number
alone, and the numbers that lines are given stay within the bound for those they come with. -/
structure Loadable (source : String) : Prop where
  numbers : (((Text.lines source.toList).filterMap leadingNumber?).map Prod.fst).Nodup
  text : ∀ line ∈ Text.lines source.toList, HasText line
  bound : ∀ p ∈ placed 0 (programLines source), p.number < numberBound

/-! ### Placing one line -/

theorem leadingNumber?_dot (rest : List Char) : leadingNumber? ('.' :: rest) = none := rfl

theorem placeNumbered?_of_ne_dot (l : Listing) {line : List Char} (h : line.head? ≠ some '.') :
    l.placeNumbered? line =
      (leadingNumber? line).map fun found => l.placeAt found.1 found.2 line := by
  unfold placeNumbered?
  split
  · exact absurd rfl h
  · rfl

theorem Placed.ofLine_of_number {last n : Nat} {line rest : List Char}
    (h : leadingNumber? line = some (n, rest)) :
    Placed.ofLine last line = ⟨n, String.ofList line, true⟩ := by
  unfold Placed.ofLine
  split
  · rw [leadingNumber?_dot] at h
    cases h
  · rw [h]

theorem Placed.ofLine_of_none {last : Nat} {line : List Char} (hdot : line.head? ≠ some '.')
    (h : leadingNumber? line = none) :
    Placed.ofLine last line = ⟨last + 1, String.ofList line, false⟩ := by
  unfold Placed.ofLine
  split
  · exact absurd rfl hdot
  · rw [h]

theorem Placed.numbered_ofLine (last : Nat) (line : List Char) :
    (Placed.ofLine last line).numbered = (leadingNumber? line).isSome := by
  unfold Placed.ofLine
  split
  · rw [leadingNumber?_dot]
    rfl
  · split <;> simp [*]

/-- A number that is not the line's own is past all numbers so far. -/
theorem Placed.lt_number_ofLine {last : Nat} {line : List Char}
    (h : (Placed.ofLine last line).numbered = false) : last < (Placed.ofLine last line).number := by
  revert h
  unfold Placed.ofLine
  split
  · intro _
    show last < last + 10
    omega
  · split
    · intro h
      cases h
    · intro _
      exact Nat.lt_succ_self last

theorem place_eq (l : Listing) {line : List Char} (h : HasText line) :
    l.place line = ⟨l.lines.insert (Placed.ofLine l.last line).number
        (Placed.ofLine l.last line).text, max l.last (Placed.ofLine l.last line).number⟩ := by
  by_cases hdot : line.head? = some '.'
  · obtain ⟨rest, rfl⟩ : ∃ rest, line = '.' :: rest := List.head?_eq_some_iff.1 hdot
    simp [place, placeNumbered?, placeNext, Placed.ofLine]
  · rw [place, placeNumbered?_of_ne_dot l hdot]
    cases hnumber : leadingNumber? line with
    | none =>
      simp [append, Placed.ofLine_of_none hdot hnumber]
    | some found =>
      obtain ⟨n, rest⟩ := found
      have hrest : rest ≠ [] := by
        rintro rfl
        exact h (by rw [hnumber]; rfl)
      simp [placeAt, Placed.ofLine_of_number hnumber, hrest]

/-! ### Placing all lines -/

/-- Puts lines under their numbers; the last one under a number stays. -/
def keep (t : Std.TreeMap Nat String) (ps : List Placed) : Std.TreeMap Nat String :=
  ps.foldl (fun t p => t.insert p.number p.text) t

theorem lines_foldl_place {lines : List (List Char)} (h : ∀ line ∈ lines, HasText line)
    (l : Listing) : (lines.foldl place l).lines = keep l.lines (placed l.last lines) := by
  induction lines generalizing l with
  | nil => rfl
  | cons line lines ih =>
    rw [List.foldl_cons, ih (fun other hother => h other (List.mem_cons_of_mem _ hother)),
      place_eq l (h line List.mem_cons_self)]
    rfl

theorem length_placed (last : Nat) (lines : List (List Char)) :
    (placed last lines).length = lines.length := by
  induction lines generalizing last with
  | nil => rfl
  | cons line lines ih => rw [placed, List.length_cons, List.length_cons, ih]

theorem getElem?_keep (t : Std.TreeMap Nat String) (ps : List Placed) (n : Nat) :
    (keep t ps)[n]? = ((ps.reverse.find? (·.number = n)).map Placed.text).or t[n]? := by
  induction ps using List.reverseRecOn with
  | nil => rfl
  | append_singleton ps p ih =>
    rw [keep, List.foldl_append]
    change ((keep t ps).insert p.number p.text)[n]? = _
    rw [Std.TreeMap.getElem?_insert, ih, List.reverse_append]
    by_cases hn : p.number = n
    · simp [hn]
    · simp [hn]

theorem lt_of_mem_placed {last : Nat} {lines : List (List Char)} {p : Placed}
    (hp : p ∈ placed last lines) (hnumbered : p.numbered = false) : last < p.number := by
  induction lines generalizing last with
  | nil => cases hp
  | cons line lines ih =>
    rcases List.mem_cons.1 hp with rfl | hp
    · exact Placed.lt_number_ofLine hnumbered
    · exact Nat.lt_of_le_of_lt (Nat.le_max_left _ _) (ih hp)

theorem pairwise_placed (last : Nat) (lines : List (List Char)) :
    (placed last lines).Pairwise fun p q => q.numbered = false → p.number < q.number := by
  induction lines generalizing last with
  | nil => exact List.Pairwise.nil
  | cons line lines ih =>
    refine List.pairwise_cons.2 ⟨fun q hq hnumbered => ?_, ih _⟩
    exact Nat.lt_of_le_of_lt (Nat.le_max_right _ _) (lt_of_mem_placed hq hnumbered)

theorem filterMap_placed (last : Nat) (lines : List (List Char)) :
    (placed last lines).filterMap (fun p => if p.numbered then some p.number else none) =
      (lines.filterMap leadingNumber?).map Prod.fst := by
  induction lines generalizing last with
  | nil => rfl
  | cons line lines ih =>
    rw [placed, List.filterMap_cons, List.filterMap_cons, ih]
    cases hnumber : leadingNumber? line with
    | none => simp [Placed.numbered_ofLine, hnumber]
    | some found => simp [Placed.ofLine_of_number hnumber]

/-- Lines that come with numbers are told apart by them, and lines without are told apart from all
lines before them. What is left is that a line takes the number given to a line before it. -/
theorem nodup_numbers_iff {last : Nat} {lines : List (List Char)}
    (hnumbers : ((lines.filterMap leadingNumber?).map Prod.fst).Nodup) :
    ((placed last lines).map Placed.number).Nodup ↔ Spared (placed last lines) := by
  rw [← filterMap_placed last, List.Nodup, List.pairwise_filterMap] at hnumbers
  rw [List.Nodup, List.pairwise_map, Spared]
  have hgrow := pairwise_placed last lines
  constructor
  · intro hne
    exact hne.imp fun hne _ _ => hne
  · intro hspared
    refine ((hnumbers.and hspared).and hgrow).imp ?_
    rintro p q ⟨⟨hown, hspared⟩, hgrow⟩
    cases hq : q.numbered with
    | false => exact Nat.ne_of_lt (hgrow hq)
    | true =>
      cases hp : p.numbered with
      | false => exact hspared hp hq
      | true => exact hown _ (by simp [hp]) _ (by simp [hq])

/-! ### What the listing holds -/

theorem mem_keys_keep (ps : List Placed) (n : Nat) :
    n ∈ (keep ∅ ps).keys ↔ n ∈ ps.map Placed.number := by
  rw [Std.TreeMap.mem_keys, Std.TreeMap.mem_iff_isSome_getElem?, getElem?_keep]
  simp

theorem size_keep (ps : List Placed) :
    (keep ∅ ps).size = (ps.map Placed.number).dedup.length := by
  have hperm : (keep ∅ ps).keys.Perm (ps.map Placed.number).dedup := by
    rw [List.perm_ext_iff_of_nodup Std.TreeMap.nodup_keys (List.nodup_dedup _)]
    intro n
    rw [mem_keys_keep, List.mem_dedup]
  rw [← Std.TreeMap.length_keys, hperm.length_eq]

theorem size_keep_eq_length_iff (ps : List Placed) :
    (keep ∅ ps).size = ps.length ↔ (ps.map Placed.number).Nodup := by
  rw [size_keep, ← List.dedup_eq_self]
  constructor
  · intro hlength
    exact (List.dedup_sublist _).eq_of_length (by rw [hlength, List.length_map])
  · intro hself
    rw [hself, List.length_map]

theorem nodup_toList (t : Std.TreeMap Nat String) : t.toList.Nodup := by
  refine Std.TreeMap.distinct_keys_toList.imp ?_
  rintro a b hab rfl
  exact hab (Nat.compare_eq_eq.2 rfl)

theorem find?_reverse_of_nodup {ps : List Placed} (hnodup : (ps.map Placed.number).Nodup)
    {p : Placed} (hp : p ∈ ps) : ps.reverse.find? (·.number = p.number) = some p := by
  induction ps using List.reverseRecOn with
  | nil => cases hp
  | append_singleton ps last ih =>
    rw [List.map_append, List.nodup_append] at hnodup
    rw [List.reverse_append, List.reverse_singleton, List.singleton_append, List.find?_cons]
    rcases List.mem_append.1 hp with hp | hp
    · have hne : p.number ≠ last.number :=
        hnodup.2.2 _ (List.mem_map_of_mem hp) _ (by simp)
      simp [hne.symm, ih hnodup.1 hp]
    · simp [List.mem_singleton.1 hp]

theorem toList_keep_perm {ps : List Placed} (hnodup : (ps.map Placed.number).Nodup) :
    (keep ∅ ps).toList.Perm (ps.map fun p => (p.number, p.text)) := by
  have hpairs : (ps.map fun p => (p.number, p.text)).Nodup := by
    rw [List.Nodup, List.pairwise_map] at hnodup ⊢
    exact hnodup.imp fun hne heq => hne (Prod.mk.inj heq).1
  rw [List.perm_ext_iff_of_nodup (nodup_toList _) hpairs]
  rintro ⟨n, text⟩
  rw [Std.TreeMap.mem_toList_iff_getElem?_eq_some, getElem?_keep, List.mem_map]
  constructor
  · intro hfound
    obtain ⟨p, hp, rfl⟩ : ∃ p, ps.reverse.find? (·.number = n) = some p ∧ p.text = text := by
      simpa using hfound
    refine ⟨p, List.mem_reverse.1 (List.mem_of_find?_eq_some hp), ?_⟩
    have hn : p.number = n := by simpa using List.find?_some hp
    rw [hn]
  · rintro ⟨p, hp, hpair⟩
    obtain ⟨rfl, rfl⟩ := Prod.mk.inj hpair
    rw [find?_reverse_of_nodup hnodup hp]
    rfl

theorem lines_ofSource {source : String}
    (htext : ∀ line ∈ Text.lines source.toList, HasText line) :
    (ofSource source).lines = keep ∅ (placed 0 (programLines source)) :=
  lines_foldl_place (fun line hline => htext line (List.mem_filter.1 hline).1) {}

theorem nodup_leadingNumbers {source : String}
    (hnumbers : (((Text.lines source.toList).filterMap leadingNumber?).map Prod.fst).Nodup) :
    (((programLines source).filterMap leadingNumber?).map Prod.fst).Nodup :=
  hnumbers.sublist ((List.filter_sublist.filterMap _).map _)

/-- Under each number stands the last line that came with it or was given it. So no line is lost just
if no line takes the number that a line before it was given, and then the listing holds each line
once, under its number. -/
theorem ofSource_loses_no_line {source : String} (h : Loadable source) :
    (∀ n, (ofSource source).lines[n]? =
      ((placed 0 (programLines source)).reverse.find? (·.number = n)).map Placed.text) ∧
    ((ofSource source).size = (programLines source).length ↔
      Spared (placed 0 (programLines source))) ∧
    (Spared (placed 0 (programLines source)) →
      (ofSource source).toList.Perm
        ((placed 0 (programLines source)).map fun p => (p.number, p.text))) := by
  have hlines := lines_ofSource h.text
  have hiff := @nodup_numbers_iff 0 _ (nodup_leadingNumbers h.numbers)
  refine ⟨fun n => ?_, ?_, fun hspared => ?_⟩
  · rw [hlines, getElem?_keep]
    simp
  · rw [size, hlines, ← hiff, ← size_keep_eq_length_iff, length_placed]
  · rw [toList, hlines]
    exact toList_keep_perm (hiff.2 hspared)

/-- Lines with and without numbers, and one with a dot, below a comment. -/
theorem ofSource_loses_no_line_mixed :
    (ofSource "# header\nx = 1\n\n100 print x\nend\n. y = 2").toList.Perm
      [(1, "x = 1"), (100, "100 print x"), (101, "end"), (111, "111 y = 2")] :=
  (@ofSource_loses_no_line "# header\nx = 1\n\n100 print x\nend\n. y = 2"
    ⟨by decide, by decide, by decide⟩).2.2 (by decide)

/-- The first line is given the number 1, and the second line comes with it: one line is left of the
two that were placed. -/
theorem given_number_overwritten :
    Loadable "x = 1\n1 print 2" ∧
    (programLines "x = 1\n1 print 2").length = 2 ∧
    (ofSource "x = 1\n1 print 2").toList = [(1, "1 print 2")] :=
  ⟨⟨by decide, by decide, by decide⟩, by decide⟩

end LineBasic.Listing
