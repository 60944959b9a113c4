import LineBasic.Machine.Functions
import LineBasic.Proofs.Elements
import LineBasic.Proofs.FoldedNames
import LineBasic.Proofs.WholeNumbers

/-!
# Keys of maps

A key stands for the text it prints as, in lower case. Texts are folded, truth values print in lower
case, and a finite number prints as digits, a point and a sign, which have no case. The numbers that
are not finite print with capital letters and are not folded, so they have entries of their own.
Main statement: reading a key gives what was last written to a key of the same text.
-/

namespace LineBasic

set_option autoImplicit false

/-! ### Printed numbers have no case -/

namespace Text

theorem foldAfter_of_fixed {cs : List Char} (h : ∀ c ∈ cs, lowerCase c = [c]) (before : List Char) :
    foldAfter before cs = cs := by
  induction cs generalizing before with
  | nil => rfl
  | cons c cs ih =>
    obtain ⟨hc, hcs⟩ := List.forall_mem_cons.mp h
    have hsigma : c ≠ 'Σ' := by
      rintro rfl
      rw [lowerCase_sigma] at hc
      exact absurd hc (by decide)
    rw [foldAfter, if_neg hsigma, hc, ih hcs]
    rfl

theorem fold_of_fixed {s : String} (h : ∀ c ∈ s.toList, lowerCase c = [c]) : fold s = s := by
  rw [fold, foldAfter_of_fixed h, String.ofList_toList]

end Text

namespace Number

/-- The characters of a finite number's text. -/
def isNumeral (c : Char) : Bool :=
  c.isDigit || c == '.' || c == '-'

theorem lowerCase_numeral {c : Char} (h : isNumeral c = true) : Text.lowerCase c = [c] := by
  have htable : ∀ n < 0x80, isNumeral (Char.ofNat n) = true →
      Text.lowerCase (Char.ofNat n) = [Char.ofNat n] := by
    decide +kernel
  have hascii : c.toNat < 0x80 := by
    simp only [isNumeral, Bool.or_eq_true, beq_iff_eq] at h
    rcases h with (hdigit | rfl) | rfl
    · exact Nat.lt_of_le_of_lt (Char.isDigit_iff_toNat.mp hdigit).2 (by decide)
    · decide
    · decide
  simpa using htable c.toNat hascii (by simpa using h)

theorem isNumeral_positional (d : Decimal) {c : Char} (hc : c ∈ d.positional.toList) :
    isNumeral c = true := by
  have hdigit (hc : c ∈ Nat.toDigits 10 d.digits) : isNumeral c = true := by
    rw [isNumeral, Nat.isDigit_of_mem_toDigits (by decide) (by decide) hc]
    rfl
  have hzero {n : Nat} (hc : c ∈ List.replicate n '0') : isNumeral c = true := by
    rw [List.eq_of_mem_replicate hc]
    decide
  unfold Decimal.positional at hc
  split at hc
  · rw [String.toList_ofList] at hc
    exact (List.mem_append.mp hc).elim hdigit hzero
  · rw [String.toList_ofList] at hc
    rcases List.mem_append.mp hc with hfront | hback
    · exact (List.mem_append.mp (List.mem_of_mem_take hfront)).elim hzero hdigit
    · rcases List.mem_cons.mp hback with rfl | hback
      · decide
      · exact (List.mem_append.mp (List.mem_of_mem_drop hback)).elim hzero hdigit

theorem isNumeral_text {x : Float} (h : x.isFinite = true) {c : Char} (hc : c ∈ (text x).toList) :
    isNumeral c = true := by
  obtain ⟨b, hb⟩ := Option.isSome_iff_exists.mp ((isSome_ofFloat? x).trans h)
  unfold text at hc
  rw [hb] at hc
  dsimp only at hc
  split at hc
  · rw [List.mem_singleton.mp hc]
    decide
  · split at hc
    · rw [String.toList_append] at hc
      rcases List.mem_append.mp hc with hsign | hmagnitude
      · rw [List.mem_singleton.mp hsign]
        decide
      · exact isNumeral_positional _ hmagnitude
    · exact isNumeral_positional _ hc

/-- Folding tells the numbers apart that are finite. -/
theorem fold_text_iff (x : Float) : Text.fold (text x) = text x ↔ x.isFinite = true := by
  refine ⟨fun hfold => ?_, fun h => ?_⟩
  · by_contra hfinite
    rw [← isSome_ofFloat?] at hfinite
    have hnone := Option.not_isSome_iff_eq_none.mp hfinite
    unfold text at hfold
    rw [hnone] at hfold
    dsimp only at hfold
    have hnan : Text.fold "NaN" ≠ "NaN" := by decide +kernel
    have hinfinity : Text.fold "Infinity" ≠ "Infinity" := by decide +kernel
    have hnegative : Text.fold "-Infinity" ≠ "-Infinity" := by decide +kernel
    split at hfold
    · exact hnan hfold
    · split at hfold
      · exact hinfinity hfold
      · exact hnegative hfold
  · exact Text.fold_of_fixed fun c hc => lowerCase_numeral (isNumeral_text h hc)

end Number

/-! ### The text of a key -/

namespace Value

/-- Texts, truth values and numbers can be keys. -/
def isKey : Value → Bool
  | .text _ | .bool _ | .number _ => true
  | _ => false

/-- An infinity, or no number at all. -/
def isUnbounded : Value → Bool
  | .number x => !x.isFinite
  | _ => false

end Value

namespace Heap

/-- The text that a key stands for: what it prints as, in lower case unless it is an infinity or no
number. -/
def keyText (h : Heap) (k : Value) : String :=
  if k.isUnbounded then h.display k else Text.fold (h.display k)

theorem key?_eq (h : Heap) {k : Value} (hk : k.isKey = true) :
    Dict.key? k = some (h.keyText k) := by
  cases k with
  | number x =>
    have hdisplay : h.display (.number x) = Number.text x := rfl
    rw [keyText, hdisplay, Value.isUnbounded]
    by_cases hx : x.isFinite = true
    · rw [hx, (Number.fold_text_iff x).mpr hx]
      rfl
    · rw [Bool.eq_false_iff.mpr hx]
      rfl
  | text s => rfl
  | bool b =>
    have hfold : ∀ b, Text.fold (boolText b) = boolText b := by decide +kernel
    exact congrArg some (hfold b).symm
  | _ => cases hk

/-! ### Sequences of writes -/

/-- Writes elements of a container one after another. -/
def setAll (container : Value) : Heap → List (Value × Value) → Except Error Heap
  | h, [] => .ok h
  | h, (k, v) :: sets => (h.setElement container [k] v).bind (setAll container · sets)

/-- The value of the last write whose key stands for this text. -/
def lastSet? (h : Heap) (sets : List (Value × Value)) (key : String) : Option Value :=
  (sets.reverse.find? fun set => h.keyText set.1 == key).map (·.2)

section

variable {h : Heap} {r : Ref} {k : Value}

theorem locate_key (h : Heap) (access : Access) (r : Ref) (hk : k.isKey = true) :
    h.locate access (.map r) [k] = .ok (.entry r (h.keyText k)) :=
  locate_map_eq_ok_iff.mpr ⟨k, _, rfl, h.key?_eq hk, rfl⟩

theorem keyText_eq (h h' : Heap) (hk : k.isKey = true) : h.keyText k = h'.keyText k :=
  Option.some.inj ((h.key?_eq hk).symm.trans (h'.key?_eq hk))

theorem lastSet?_cons (h : Heap) (k v : Value) (sets : List (Value × Value)) (key : String) :
    h.lastSet? ((k, v) :: sets) key =
      (h.lastSet? sets key).or (if h.keyText k = key then some v else none) := by
  rw [lastSet?, List.reverse_cons, List.find?_append, Option.map_or]
  congr 1
  by_cases hkey : h.keyText k = key
  · simp [hkey]
  · simp [hkey]

theorem lastSet?_eq (h h' : Heap) {sets : List (Value × Value)}
    (hsets : ∀ set ∈ sets, set.1.isKey = true) (key : String) :
    h.lastSet? sets key = h'.lastSet? sets key := by
  induction sets with
  | nil => rfl
  | cons set sets ih =>
    obtain ⟨hk, hsets⟩ := List.forall_mem_cons.mp hsets
    rw [lastSet?_cons, lastSet?_cons, ih hsets, h.keyText_eq h' hk]

/-- Writes to a map succeed, and each entry is what was written last. -/
theorem setAll_map (hr : r < h.dicts.size) {sets : List (Value × Value)}
    (hsets : ∀ set ∈ sets, set.1.isKey = true) :
    ∃ h', setAll (.map r) h sets = .ok h' ∧ r < h'.dicts.size ∧
      ∀ key, h'.element? (.entry r key) = (h.lastSet? sets key).or (h.element? (.entry r key)) := by
  induction sets generalizing h with
  | nil => exact ⟨h, rfl, hr, fun key => rfl⟩
  | cons set sets ih =>
    obtain ⟨k, v⟩ := set
    obtain ⟨hk, hsets⟩ := List.forall_mem_cons.mp hsets
    have hset : h.setElement (.map r) [k] v = .ok (h.write (.entry r (h.keyText k)) v) :=
      setElement_eq_ok_iff.mpr ⟨_, h.locate_key .writing r hk, rfl⟩
    have hlive : r < (h.write (.entry r (h.keyText k)) v).dicts.size :=
      Nat.lt_of_lt_of_eq hr (h.count_write _ v .map).symm
    obtain ⟨h', hall, hr', hentries⟩ := ih hlive hsets
    refine ⟨h', ?_, hr', fun key => ?_⟩
    · rw [setAll, hset]
      exact hall
    · rw [hentries, lastSet?_eq _ h hsets, lastSet?_cons, Option.or_assoc]
      congr 1
      rw [element?_write (show h.Writable (.entry r _) from hr)]
      by_cases hkey : h.keyText k = key
      · rw [if_pos (congrArg (Slot.entry r) hkey), if_pos hkey]
        rfl
      · rw [if_neg fun heq => hkey (Slot.entry.inj heq).2, if_neg hkey]
        rfl

theorem size_setAll {h' : Heap} {sets : List (Value × Value)}
    (hentries : ∀ key, h'.element? (.entry r key) = h'.lastSet? sets key) :
    (h'.dict r).size = (sets.map fun set => h'.keyText set.1).dedup.length := by
  have hperm : (h'.dict r).entries.keys.Perm (sets.map fun set => h'.keyText set.1).dedup := by
    rw [List.perm_ext_iff_of_nodup Std.TreeMap.nodup_keys (List.nodup_dedup _)]
    intro key
    have hentry : (h'.dict r).entries[key]? = h'.lastSet? sets key := hentries key
    rw [List.mem_dedup, Std.TreeMap.mem_keys, Std.TreeMap.mem_iff_isSome_getElem?, hentry, lastSet?]
    simp
  rw [Dict.size, ← Std.TreeMap.length_keys, hperm.length_eq]

theorem keyText_eq_fold_iff (h : Heap) (hk : k.isKey = true) :
    h.keyText k = Text.fold (h.display k) ↔ k.isUnbounded = false := by
  unfold keyText
  split
  · rename_i hunbounded
    rw [hunbounded]
    cases k with
    | number x =>
      have hinfinite : x.isFinite = false := Bool.not_eq_true' _ ▸ hunbounded
      have hfold := Number.fold_text_iff x
      rw [hinfinite] at hfold
      simp only [Bool.false_eq_true, iff_false] at hfold
      simpa using fun heq => hfold heq.symm
    | _ => cases hunbounded
  · rename_i hbounded
    simpa using hbounded

end

end Heap

/-- Writes to a new map whose keys are texts, truth values and numbers succeed. Reading a key then
gives the value that was last written to a key of the same text, and -1 if there is none; the length
is the number of such texts. The text of a key is what `str$` gives for it, in lower case, except
that numbers that are not finite keep their capital letters; so a value and its printed text are the
same key exactly if the value is not such a number. -/
theorem map_keys (h : Heap) (sets : List (Value × Value))
    (hsets : ∀ set ∈ sets, set.1.isKey = true) :
    ∃ h', Heap.setAll h.newMap.1 h.newMap.2 sets = .ok h' ∧
      (∀ k : Value, k.isKey = true →
        h'.getElement h.newMap.1 [k] =
          .ok ((h'.lastSet? sets (h'.keyText k)).getD (.number (-1)))) ∧
      ∀ view : View, view.heap = h' →
        Function.len view [h.newMap.1] = .ok (.number (Float.ofNat
          (sets.map fun set => h'.keyText set.1).dedup.length)) ∧
        ∀ k : Value, k.isKey = true → ∃ s, Function.str view [k] = .ok (.text s) ∧
          (h'.keyText k = Text.fold s ↔ k.isUnbounded = false) ∧
          ∀ access, h'.locate access h.newMap.1 [.text s] = h'.locate access h.newMap.1 [k] ↔
            k.isUnbounded = false := by
  have hlive : h.dicts.size < h.newMap.2.dicts.size := by simp [Heap.newMap]
  have hnew : h.newMap.2.dict h.dicts.size = {} := by simp [Heap.newMap, Heap.dict]
  obtain ⟨h', hall, -, hentries⟩ := Heap.setAll_map hlive hsets
  have hentries (key : String) :
      h'.element? (.entry h.dicts.size key) = h'.lastSet? sets key := by
    have hempty : h.newMap.2.element? (.entry h.dicts.size key) = none := by
      unfold Heap.element?
      dsimp only
      rw [hnew]
      exact Std.TreeMap.getElem?_emptyc
    rw [hentries, hempty, Option.or_none, Heap.lastSet?_eq _ h' hsets]
  refine ⟨h', hall, fun k hk => ?_, ?_⟩
  · rw [Heap.getElement_eq_ok_iff]
    refine ⟨_, h'.locate_key .reading _ hk, ?_⟩
    rw [Heap.read_eq, hentries]
    rfl
  · rintro view rfl
    refine ⟨?_, fun k hk =>
      ⟨view.heap.display k, rfl, view.heap.keyText_eq_fold_iff hk, fun access => ?_⟩⟩
    · rw [← Heap.size_setAll hentries]
      rfl
    · have htext : view.heap.locate access h.newMap.1 [.text (view.heap.display k)] =
          .ok (.entry h.dicts.size (Text.fold (view.heap.display k))) :=
        view.heap.locate_key access _ rfl
      have hkey : view.heap.locate access h.newMap.1 [k] =
          .ok (.entry h.dicts.size (view.heap.keyText k)) := view.heap.locate_key access _ hk
      rw [htext, hkey, ← view.heap.keyText_eq_fold_iff hk]
      simp [eq_comm]

theorem map_keys_mixed :
    let sets : List (Value × Value) :=
      [(.text "TRUE", .number 1), (.number 2, .number 3), (.bool true, .number 4)]
    (∀ set ∈ sets, set.1.isKey = true) ∧
    ∃ h', Heap.setAll (.map 0) (Heap.newMap {}).2 sets = .ok h' ∧
      h'.getElement (.map 0) [.text "True"] = .ok (.number 4) ∧
      h'.getElement (.map 0) [.text "2"] = .ok (.number 3) ∧
      h'.getElement (.map 0) [.text "3"] = .ok (.number (-1)) := by
  intro sets
  have hsets : ∀ set ∈ sets, set.1.isKey = true := by decide
  refine ⟨hsets, ?_⟩
  obtain ⟨h', hall, hget, -⟩ := map_keys {} sets hsets
  have hread (k : Value) (hk : k.isKey = true) : h'.getElement (.map 0) [k] =
      .ok ((({} : Heap).lastSet? sets (({} : Heap).keyText k)).getD (.number (-1))) := by
    rw [Heap.lastSet?_eq {} h' hsets, Heap.keyText_eq {} h' hk]
    exact hget k hk
  exact ⟨h', hall, (hread _ rfl).trans (congrArg Except.ok (by decide +kernel)),
    (hread _ rfl).trans (congrArg Except.ok (by decide +kernel)),
    (hread _ rfl).trans (congrArg Except.ok (by decide +kernel))⟩

theorem map_keys_infinity : ∃ h',
    Heap.setAll (.map 0) (Heap.newMap {}).2 [(.number (1 / 0), .number 5)] = .ok h' ∧
    h'.display (.number (1 / 0)) = "Infinity" ∧
    h'.getElement (.map 0) [.number (1 / 0)] = .ok (.number 5) ∧
    h'.getElement (.map 0) [.text "Infinity"] = .ok (.number (-1)) := by
  refine ⟨_, rfl, ?_, ?_, ?_⟩
  · decide +kernel
  · rfl
  · rfl

end LineBasic
