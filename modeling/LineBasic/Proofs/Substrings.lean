import LineBasic.Machine.Functions
import LineBasic.Proofs.WholeNumbers

/-!
# Cutting texts into parts

The functions that take a part of a text count characters from its start, from its end or between two
places, and each of them makes what it can of numbers that are no places in the text. Main statement:
the parts that they give fit together, wherever the places are, and for any numbers at all each of them
gives a piece of the text.
-/

namespace LineBasic

set_option autoImplicit false

theorem Number.floorNat_of_nat? {x : Float} {n : Nat} (h : nat? x = some n) (bound : Nat) :
    floorNat bound x = min n bound := by
  unfold nat? at h
  split at h
  · rename_i k hwhole
    obtain rfl := Option.some.inj h
    unfold whole? at hwhole
    unfold floorNat
    cases hparts : Binary.ofFloat? x with
    | none =>
      rw [hparts] at hwhole
      cases hwhole
    | some b =>
      rw [hparts] at hwhole
      dsimp only at hwhole ⊢
      split at hwhole
      · have hvalue := Option.some.inj hwhole
        cases hnegative : b.negative with
        | true =>
          -- of the numbers with a sign only zero is not negative
          simp only [hnegative, if_true] at hvalue ⊢
          change -(b.wholePart : Int) = (k : Int) at hvalue
          omega
        | false =>
          simp only [hnegative, Bool.false_eq_true, if_false] at hvalue ⊢
          rw [Int.ofNat_inj.mp hvalue]
      · cases hwhole
  · cases h

theorem Number.floorNat_of_index? {x : Float} {n : Nat} (h : Heap.index? x = some n) :
    floorNat Heap.maxIndex x = n := by
  obtain ⟨hnat, hle⟩ := Option.filter_eq_some_iff.mp h
  rw [floorNat_of_nat? hnat]
  exact Nat.min_eq_left (of_decide_eq_true hle)

namespace Function

/-! ### Parts by their characters -/

section

variable (s : String) {a b c : Nat}

theorem toList_leftPart (n : Nat) : (leftPart s n).toList = s.toList.take n :=
  String.toList_copy_take

theorem toList_rightPart (n : Nat) : (rightPart s n).toList = s.toList.drop (s.length - n) := by
  rw [rightPart, String.toList_copy_takeEnd, String.length_toList]

theorem toList_midPart_of_le (h : a ≤ b) : (midPart s a b).toList = (s.toList.take b).drop a := by
  have hmin : min a s.length ≤ min b s.length := by omega
  have htake : s.toList.take (min b s.length) = s.toList.take b := by
    rw [← String.length_toList, ← List.take_eq_take_min]
  have hlength : (s.toList.take b).length = min b s.length := by
    rw [List.length_take, String.length_toList]
  -- characters are counted from the end of the text, and from the start again
  have hlast : s.toList.length - (s.length - min b s.length) = min b s.length := by
    rw [String.length_toList]
    omega
  have hfirst : min b s.length - (min b s.length - min a s.length) = min a s.length := by omega
  rw [midPart, if_neg (Nat.not_lt.mpr hmin)]
  dsimp only
  rw [String.Slice.toList_copy_takeEnd, String.toList_copy_dropEnd, hlast, htake, hlength, hfirst]
  rcases Nat.le_total a s.length with ha | ha
  · rw [Nat.min_eq_left ha]
  · rw [List.drop_eq_nil_of_le (by omega), List.drop_eq_nil_of_le (by omega)]

theorem midPart_comm (a b : Nat) : midPart s b a = midPart s a b := by
  rcases Nat.lt_trichotomy (min a s.length) (min b s.length) with h | h | h
  · rw [midPart, midPart, if_pos h, if_neg (Nat.lt_asymm h)]
  · rw [midPart, midPart, h]
  · rw [midPart, midPart, if_pos h, if_neg (Nat.lt_asymm h)]

theorem toList_midPart_length (a : Nat) : (midPart s a s.length).toList = s.toList.drop a := by
  rcases Nat.le_total a s.length with h | h
  · rw [toList_midPart_of_le s h, ← String.length_toList, List.take_length]
  · rw [midPart_comm, toList_midPart_of_le s h, List.drop_eq_nil_of_le, List.drop_eq_nil_of_le]
    · rwa [String.length_toList]
    · exact (List.length_take_le' _ _).trans_eq String.length_toList

theorem midPart_append (hab : a ≤ b) (hbc : b ≤ c) :
    midPart s a b ++ midPart s b c = midPart s a c := by
  have hfront : s.toList.take b = (s.toList.take c).take b := by
    rw [List.take_take, Nat.min_eq_left hbc]
  apply String.toList_inj.mp
  calc (midPart s a b ++ midPart s b c).toList
      = ((s.toList.take c).take b).drop a ++ (s.toList.take c).drop b := by
        rw [String.toList_append, toList_midPart_of_le s hab, toList_midPart_of_le s hbc, hfront]
    _ = ((s.toList.take c).drop a).take (b - a) ++ ((s.toList.take c).drop a).drop (b - a) := by
        rw [List.drop_take, List.drop_drop, Nat.add_sub_cancel' hab]
    _ = (midPart s a c).toList := by
        rw [List.take_append_drop, toList_midPart_of_le s (Nat.le_trans hab hbc)]

theorem midPart_infix (a b : Nat) : (midPart s a b).toList <:+: s.toList := by
  have hle {a b : Nat} (h : a ≤ b) : (midPart s a b).toList <:+: s.toList := by
    rw [toList_midPart_of_le s h]
    exact (List.drop_suffix _ _).isInfix.trans (List.take_prefix _ _).isInfix
  rcases Nat.le_total a b with h | h
  · exact hle h
  · rw [midPart_comm]
    exact hle h

end

/-! ### The functions -/

/-- What `+` makes of two results. -/
def plus (view : View) (p q : Except Error Value) : Except Error Value := do
  BinaryOp.apply view.heap .add (← p) (← q)

section

variable (view : View) (s : String)

theorem left_number (x : Float) : left view [.text s, .number x] =
    .ok (.text (leftPart s (Number.floorNat Heap.maxIndex x))) := rfl

theorem mid_number (x : Float) : mid view [.text s, .number x] =
    .ok (.text (midPart s (Number.floorNat Heap.maxIndex x) s.length)) := rfl

theorem mid_numbers (x y : Float) : mid view [.text s, .number x, .number y] =
    .ok (.text (midPart s (Number.floorNat Heap.maxIndex x) (Number.floorNat Heap.maxIndex y))) :=
  rfl

theorem right_number (x : Float) : right view [.text s, .number x] =
    .ok (.text (rightPart s (Number.floorNat Heap.maxIndex x))) := rfl

theorem plus_text (t : String) :
    plus view (.ok (.text s)) (.ok (.text t)) = .ok (.text (s ++ t)) := rfl

/-- The last characters are those from a place on, if the place is not past all indices. -/
theorem right_eq_mid_iff {s : String} {x w : Float} {a : Nat} (hx : Heap.index? x = some a)
    (hw : Number.nat? w = some (s.length - a)) :
    right view [.text s, .number x] = mid view [.text s, .number w] ↔
      s.length - a ≤ Heap.maxIndex := by
  rw [right_number, mid_number, Number.floorNat_of_index? hx, Number.floorNat_of_nat? hw]
  constructor
  · intro heq
    have htext := congrArg String.toList (Value.text.inj (Except.ok.inj heq))
    rw [toList_rightPart, toList_midPart_length] at htext
    have hlength := congrArg List.length htext
    rw [List.length_drop, List.length_drop, String.length_toList] at hlength
    omega
  · intro hle
    have htext : rightPart s a = midPart s (min (s.length - a) Heap.maxIndex) s.length := by
      apply String.toList_inj.mp
      rw [toList_rightPart, toList_midPart_length, Nat.min_eq_left hle]
    rw [htext]

/-- The parts of a text fit together: the start and the rest, two parts with a common place, a part
from one side and from the other. So do the end and the rest, as long as the place where they meet is
an index. Numbers that are no places give a piece of the text as well. -/
theorem substrings_cut :
    (∀ (x y z : Float) (a b c : Nat), Heap.index? x = some a → Heap.index? y = some b →
      Heap.index? z = some c → a ≤ b → b ≤ c →
      plus view (left view [.text s, .number x]) (mid view [.text s, .number x]) = .ok (.text s) ∧
      plus view (mid view [.text s, .number x, .number y]) (mid view [.text s, .number y, .number z]) =
        mid view [.text s, .number x, .number z] ∧
      mid view [.text s, .number y, .number x] = mid view [.text s, .number x, .number y] ∧
      mid view [.text s, .number 0, .number x] = left view [.text s, .number x] ∧
      ∀ w, Number.nat? w = some (s.length - a) →
        (right view [.text s, .number x] = mid view [.text s, .number w] ↔
          s.length - a ≤ Heap.maxIndex)) ∧
    ∀ x y : Float,
      (∃ t, left view [.text s, .number x] = .ok (.text t) ∧ t.toList <:+: s.toList) ∧
      (∃ t, mid view [.text s, .number x] = .ok (.text t) ∧ t.toList <:+: s.toList) ∧
      (∃ t, mid view [.text s, .number x, .number y] = .ok (.text t) ∧ t.toList <:+: s.toList) ∧
      ∃ t, right view [.text s, .number x] = .ok (.text t) ∧ t.toList <:+: s.toList := by
  constructor
  · intro x y z a b c hx hy hz hab hbc
    refine ⟨?_, ?_, ?_, ?_, fun w hw => right_eq_mid_iff view hx hw⟩
    · have hwhole (n : Nat) : leftPart s n ++ midPart s n s.length = s := by
        apply String.toList_inj.mp
        rw [String.toList_append, toList_leftPart, toList_midPart_length, List.take_append_drop]
      rw [left_number, mid_number, plus_text, hwhole]
    · rw [mid_numbers, mid_numbers, mid_numbers, plus_text, Number.floorNat_of_index? hx,
        Number.floorNat_of_index? hy, Number.floorNat_of_index? hz, midPart_append s hab hbc]
    · rw [mid_numbers, mid_numbers, midPart_comm]
    · have hzero : Number.floorNat Heap.maxIndex 0 = 0 := by decide +kernel
      have hstart (n : Nat) : midPart s 0 n = leftPart s n := by
        apply String.toList_inj.mp
        rw [toList_midPart_of_le s (Nat.zero_le n), toList_leftPart, List.drop_zero]
      rw [mid_numbers, left_number, hzero, hstart]
  · intro x y
    refine ⟨⟨_, left_number view s x, ?_⟩, ⟨_, mid_number view s x, midPart_infix s _ _⟩,
      ⟨_, mid_numbers view s x y, midPart_infix s _ _⟩, ⟨_, right_number view s x, ?_⟩⟩
    · rw [toList_leftPart]
      exact (List.take_prefix _ _).isInfix
    · rw [toList_rightPart]
      exact (List.drop_suffix _ _).isInfix

end

/-- A part that starts in a text and ends behind it. -/
theorem substrings_cut_hello :
    let view : View := ⟨{}, ∅, {}⟩
    (Heap.index? 2 = some 2 ∧ Heap.index? 4 = some 4 ∧ Heap.index? 9 = some 9) ∧
    plus view (mid view [.text "hello", .number 2, .number 4])
      (mid view [.text "hello", .number 4, .number 9]) = .ok (.text "llo") := by
  intro view
  have h2 : Heap.index? 2 = some 2 := by decide +kernel
  have h4 : Heap.index? 4 = some 4 := by decide +kernel
  have h9 : Heap.index? 9 = some 9 := by decide +kernel
  have hcut := (substrings_cut view "hello").1 2 4 9 2 4 9 h2 h4 h9 (by decide) (by decide)
  refine ⟨⟨h2, h4, h9⟩, hcut.2.1.trans ?_⟩
  rw [mid_numbers, Number.floorNat_of_index? h2, Number.floorNat_of_index? h9]
  congr 2
  apply String.toList_inj.mp
  rw [toList_midPart_of_le "hello" (by decide)]
  rfl

theorem exists_text_of_length (n : Nat) : ∃ s : String, s.length = n :=
  ⟨String.ofList (List.replicate n 'a'), by rw [String.length_ofList, List.length_replicate]⟩

/-- No place past all indices can be given to `mid$`: in a text that is long enough for such places,
the last character stands in for the end. -/
theorem right_differs_from_mid : ∃ s : String, s.length = 2 ^ 32 ∧ Heap.index? 0 = some 0 ∧
    Number.nat? 4294967296 = some (s.length - 0) ∧
      ∀ view, right view [.text s, .number 0] ≠ mid view [.text s, .number 4294967296] := by
  have hzero : Heap.index? 0 = some 0 := by decide +kernel
  have hend : Number.nat? 4294967296 = some (2 ^ 32) := by decide +kernel
  obtain ⟨s, hlength⟩ := exists_text_of_length (2 ^ 32)
  rw [← hlength] at hend
  refine ⟨s, hlength, hzero, hend, fun view heq => ?_⟩
  have hle := (right_eq_mid_iff view hzero hend).mp heq
  rw [hlength] at hle
  exact absurd hle (by decide)

end Function

end LineBasic
