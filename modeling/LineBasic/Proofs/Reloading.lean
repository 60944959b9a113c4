import LineBasic.Proofs.LoadedPrograms
import LineBasic.Terminal.Directory

/-!
# Saving a listing and loading it again

The text of a listing does not say under which number a line stands, unless the line starts with it.
Loading the text gives such lines their numbers back. All other lines are numbered anew, each past the
lines before it, and as the lines come in order no new number is larger than the old one: so every line
finds its number free, and the order stays. The only lines that do not come back are those that a dot
left with a number and nothing else, because such a line deletes. Main statement: what loading makes of
the saved text, line by line, for every listing that a text and lines typed at a prompt can lead to.
-/

namespace LineBasic

set_option autoImplicit false

/-! ### Lines that can be cut out of a text again -/

/-- No line feed is in the line, and no carriage return at its end would join the line feed behind. -/
structure IsLine (line : List Char) : Prop where
  feed : '\n' ∉ line
  ending : line.getLast? ≠ some '\r'

theorem InLine.isLine {line : List Char} (h : InLine line) : IsLine line := by
  refine ⟨fun hfeed => ?_, fun hreturn => ?_⟩
  · cases h _ hfeed
  · cases h _ (List.mem_of_getLast? hreturn)

theorem IsLine.tail {c : Char} {line : List Char} (h : IsLine (c :: line)) : IsLine line := by
  refine ⟨fun hfeed => h.feed (List.mem_cons_of_mem c hfeed), fun hreturn => h.ending ?_⟩
  rw [List.getLast?_cons, hreturn]
  rfl

theorem lines_append_feed {line : List Char} (h : IsLine line) (more : List Char) :
    Text.lines (line ++ '\n' :: more) = line :: Text.lines more := by
  induction line with
  | nil => rfl
  | cons c cs ih =>
    have hfeed : c ≠ '\n' := by
      rintro rfl
      exact h.feed List.mem_cons_self
    have hreturn : ∀ ds, c = '\r' → cs ++ '\n' :: more = '\n' :: ds → False := by
      rintro ds rfl heq
      cases cs with
      | nil => exact h.ending rfl
      | cons d cs =>
        obtain rfl : d = '\n' := (List.cons.inj heq).1
        exact h.feed (List.mem_cons_of_mem _ List.mem_cons_self)
    rw [List.cons_append, Text.lines.eq_4 _ _ hreturn hfeed, ih h.tail]

theorem lines_intercalate_feed {ls : List (List Char)} (h : ∀ line ∈ ls, IsLine line)
    (hne : ls ≠ []) : Text.lines (['\n'].intercalate ls ++ ['\n']) = ls := by
  induction ls with
  | nil => exact absurd rfl hne
  | cons line ls ih =>
    obtain ⟨hline, hls⟩ := List.forall_mem_cons.1 h
    cases ls with
    | nil =>
      rw [List.intercalate_singleton, lines_append_feed hline]
      rfl
    | cons next ls =>
      rw [List.intercalate_cons_cons, List.append_assoc, List.append_assoc, List.singleton_append,
        lines_append_feed hline, ih hls (List.cons_ne_nil _ _)]

theorem inLine_of_mem_lines {cs line : List Char} (h : loneReturn cs = false)
    (hline : line ∈ Text.lines cs) : InLine line := by
  have hcons {c : Char} {cs l : List Char} (hcrlf : ∀ ds, c = '\r' → cs = '\n' :: ds → False)
      (hfeed : c ≠ '\n') (h : loneReturn (c :: cs) = false) (hl : InLine l) : InLine (c :: l) := by
    rw [loneReturn, Bool.or_eq_false_iff] at h
    refine List.forall_mem_cons.2 ⟨?_, hl⟩
    have hreturn : c ≠ '\r' := by
      rintro rfl
      obtain ⟨ds, hds⟩ : ∃ ds, cs = '\n' :: ds := List.head?_eq_some_iff.1 (by simpa using h.1)
      exact hcrlf ds rfl hds
    simp [isNewline, hfeed, hreturn]
  have hnil : InLine [] := fun _ hc => absurd hc List.not_mem_nil
  fun_induction Text.lines cs generalizing line with
  | case1 => cases hline
  | case2 cs ih =>
    rcases List.mem_cons.1 hline with rfl | hline
    · exact hnil
    · exact ih (@loneReturn_of_append ['\r', '\n'] _ h) hline
  | case3 cs ih =>
    rcases List.mem_cons.1 hline with rfl | hline
    · exact hnil
    · exact ih (@loneReturn_of_append ['\n'] _ h) hline
  | case4 c cs hfeed hcrlf hlines ih =>
    rw [List.mem_singleton.1 hline]
    exact hcons hfeed hcrlf h hnil
  | case5 c cs hfeed hcrlf l ls hlines ih =>
    have hrest := fun {line} => @ih line (@loneReturn_of_append [c] _ h)
    rw [hlines] at hrest
    rcases List.mem_cons.1 hline with rfl | hline
    · exact hcons hfeed hcrlf h (hrest List.mem_cons_self)
    · exact hrest (List.mem_cons_of_mem _ hline)

namespace Listing

/-! ### Lines and their numbers -/

theorem not_isBlank_of_isDigit {c : Char} (h : c.isDigit = true) : Text.isBlank c = false := by
  obtain ⟨hlow, hhigh⟩ : 48 ≤ c.toNat ∧ c.toNat ≤ 57 := Char.isDigit_iff_toNat.1 h
  refine List.any_eq_false.2 fun range hrange => ?_
  simp only [Text.blankRanges, List.mem_cons, List.not_mem_nil, or_false] at hrange
  rcases hrange with rfl | rfl | rfl | rfl | rfl | rfl | rfl | rfl | rfl | rfl <;> simp <;> omega

theorem isProgramLine_of_isDigit {c : Char} (h : c.isDigit = true) (cs : List Char) :
    isProgramLine (c :: cs) = true := by
  have htrim : Text.trim (c :: cs) ≠ [] := by
    intro htrim
    have hblank := forall_isBlank_of_trim htrim c List.mem_cons_self
    rw [not_isBlank_of_isDigit h] at hblank
    cases hblank
  have hhash : c ≠ '#' := by
    rintro rfl
    cases h
  simp [isProgramLine, htrim, hhash]

theorem exists_digit_of_leadingNumber? {n : Nat} {line rest : List Char}
    (h : leadingNumber? line = some (n, rest)) : ∃ c cs, line = c :: cs ∧ c.isDigit = true := by
  cases line with
  | nil => cases h
  | cons c cs =>
    refine ⟨c, cs, rfl, Bool.not_eq_false _ ▸ fun hc => ?_⟩
    rw [leadingNumber?, List.takeWhile_cons_of_neg (by simp [hc])] at h
    cases h

theorem takeWhile_toDigits (n : Nat) (cs : List Char) :
    (Nat.toDigits 10 n ++ ' ' :: cs).takeWhile Char.isDigit = Nat.toDigits 10 n := by
  rw [List.takeWhile_append_of_pos fun c hc =>
    Nat.isDigit_of_mem_toDigits (by decide) (by decide) hc]
  simp

theorem number_of_leadingNumber? {n k : Nat} {cs rest : List Char}
    (h : leadingNumber? (Nat.toDigits 10 n ++ ' ' :: cs) = some (k, rest)) : k = n := by
  rw [leadingNumber?, takeWhile_toDigits, Nat.ofDigitChars_toDigits (by decide) (by decide)] at h
  split at h
  · cases h
  · cases h
    rfl

/-- What is true of the line under a number of a listing: the line can be cut out of a text again and
enters a listing as it is, under the number if it starts with one. Zero is never given out. -/
structure Fits (n : Nat) (line : List Char) : Prop where
  isLine : IsLine line
  program : isProgramLine line = true
  ne_dot : line.head? ≠ some '.'
  number : ∀ k rest, leadingNumber? line = some (k, rest) → k = n
  given : leadingNumber? line = none → 0 < n

theorem Fits.of_number {n : Nat} {line rest : List Char} (hline : IsLine line)
    (h : leadingNumber? line = some (n, rest)) : Fits n line := by
  obtain ⟨c, cs, rfl, hc⟩ := exists_digit_of_leadingNumber? h
  refine ⟨hline, isProgramLine_of_isDigit hc cs, ?_, fun k rest' hk => ?_, fun hk => ?_⟩
  · rintro ⟨⟩
    cases hc
  · cases h.symm.trans hk
    rfl
  · cases h.symm.trans hk

theorem mem_of_mem_trim {c : Char} {line : List Char} (h : c ∈ Text.trim line) : c ∈ line :=
  (List.dropWhile_sublist _).mem (List.mem_reverse.1
    ((List.dropWhile_sublist _).mem (List.mem_reverse.1 h)))

theorem getLast?_trim_ne {c : Char} (hc : Text.isBlank c = true) (line : List Char) :
    (Text.trim line).getLast? ≠ some c := by
  rw [Text.trim, List.getLast?_reverse]
  intro h
  have hkept := List.head?_dropWhile_not Text.isBlank (Text.trimStart line).reverse
  rw [h] at hkept
  simp [hc] at hkept

theorem Fits.of_dot {n : Nat} (hn : 0 < n) {rest : List Char} (hfeed : '\n' ∉ rest) :
    Fits n (Nat.toDigits 10 n ++ ' ' :: Text.trim rest) := by
  have hdigits : ∀ c ∈ Nat.toDigits 10 n, c.isDigit = true :=
    fun c hc => Nat.isDigit_of_mem_toDigits (by decide) (by decide) hc
  obtain ⟨c, cs, hcs⟩ := List.exists_cons_of_ne_nil (Nat.toDigits_ne_nil (b := 10) (n := n))
  have hc := hdigits c (hcs ▸ List.mem_cons_self)
  refine ⟨⟨fun hmem => ?_, ?_⟩, ?_, ?_, fun k rest' hk => number_of_leadingNumber? hk, fun _ => hn⟩
  · rcases List.mem_append.1 hmem with hmem | hmem
    · cases hdigits _ hmem
    · rcases List.mem_cons.1 hmem with hmem | hmem
      · cases hmem
      · exact hfeed (mem_of_mem_trim hmem)
  · rw [List.getLast?_append, List.getLast?_cons]
    cases hlast : (Text.trim rest).getLast? with
    | none => nofun
    | some d =>
      have hne := getLast?_trim_ne (c := '\r') (by decide) rest
      rwa [hlast] at hne
  · rw [hcs, List.cons_append]
    exact isProgramLine_of_isDigit hc _
  · rw [hcs, List.cons_append]
    rintro ⟨⟩
    cases hc

/-- A listing in which every line fits its number. -/
def Fitting (l : Listing) : Prop :=
  ∀ (n : Nat) (text : String), l.lines[n]? = some text → Fits n text.toList

theorem fitting_empty : Fitting {} := by
  intro n text h
  rw [Std.TreeMap.getElem?_emptyc] at h
  cases h

variable {l l' : Listing} {line : List Char}

theorem Fitting.insert (hl : l.Fitting) {n last : Nat} {text : String} (h : Fits n text.toList) :
    Fitting ⟨l.lines.insert n text, last⟩ := by
  intro k other hk
  change (l.lines.insert n text)[k]? = some other at hk
  rw [Std.TreeMap.getElem?_insert] at hk
  split at hk
  · rename_i heq
    cases hk
    rwa [← Nat.compare_eq_eq.1 heq]
  · exact hl k other hk

theorem Fitting.erase (hl : l.Fitting) (n last : Nat) : Fitting ⟨l.lines.erase n, last⟩ := by
  intro k other hk
  change (l.lines.erase n)[k]? = some other at hk
  rw [Std.TreeMap.getElem?_erase] at hk
  split at hk
  · cases hk
  · exact hl k other hk

theorem Fitting.placeNumbered? (hl : l.Fitting) (hline : IsLine line)
    (h : l.placeNumbered? line = some l') : l'.Fitting := by
  by_cases hdot : line.head? = some '.'
  · obtain ⟨rest, rfl⟩ : ∃ rest, line = '.' :: rest := List.head?_eq_some_iff.1 hdot
    cases h
    refine hl.insert ?_
    have hfits := Fits.of_dot (Nat.succ_pos (l.last + 9)) hline.tail.feed
    simpa using hfits
  · rw [placeNumbered?_of_ne_dot l hdot] at h
    obtain ⟨⟨n, rest⟩, hnumber, rfl⟩ := Option.map_eq_some_iff.1 h
    dsimp only [placeAt]
    split
    · exact hl.erase n _
    · refine hl.insert ?_
      rw [String.toList_ofList]
      exact .of_number hline hnumber

theorem Fitting.place (hl : l.Fitting) (hline : IsLine line) (hprogram : isProgramLine line = true) :
    (l.place line).Fitting := by
  rw [Listing.place]
  cases hplaced : l.placeNumbered? line with
  | some l' => exact hl.placeNumbered? hline hplaced
  | none =>
    have hdot : line.head? ≠ some '.' := by
      intro hdot
      obtain ⟨rest, rfl⟩ : ∃ rest, line = '.' :: rest := List.head?_eq_some_iff.1 hdot
      cases hplaced
    rw [placeNumbered?_of_ne_dot l hdot, Option.map_eq_none_iff] at hplaced
    refine hl.insert ?_
    rw [String.toList_ofList]
    refine ⟨hline, hprogram, hdot, fun k rest h => ?_, fun _ => Nat.succ_pos l.last⟩
    cases hplaced.symm.trans h

theorem fitting_ofSource {source : String} (h : loneReturn source.toList = false) :
    (ofSource source).Fitting := by
  have hfold {ls : List (List Char)} (hls : ∀ line ∈ ls, IsLine line ∧ isProgramLine line = true)
      {l : Listing} (hl : l.Fitting) : (ls.foldl Listing.place l).Fitting := by
    induction ls generalizing l with
    | nil => exact hl
    | cons line ls ih =>
      obtain ⟨hline, hls⟩ := List.forall_mem_cons.1 hls
      exact ih hls (hl.place hline.1 hline.2)
  refine hfold (fun line hline => ?_) fitting_empty
  obtain ⟨hmem, hprogram⟩ := List.mem_filter.1 hline
  exact ⟨(inLine_of_mem_lines h hmem).isLine, hprogram⟩

/-- What a line typed at a prompt makes of a listing: it is refused unless it comes with a number or a
dot. -/
def type (l : Listing) (line : List Char) : Listing :=
  (l.placeNumbered? line).getD l

theorem isLine_of_trim (htrim : Text.trim line = line) (hfeed : '\n' ∉ line) : IsLine line :=
  ⟨hfeed, htrim ▸ getLast?_trim_ne (by decide) line⟩

theorem Fitting.typeAll {ls : List (List Char)} (hls : ∀ line ∈ ls, IsLine line) (hl : l.Fitting) :
    (ls.foldl type l).Fitting := by
  induction ls generalizing l with
  | nil => exact hl
  | cons line ls ih =>
    obtain ⟨hline, hls⟩ := List.forall_mem_cons.1 hls
    refine ih hls ?_
    rw [type]
    cases hplaced : l.placeNumbered? line with
    | none => exact hl
    | some l' => exact hl.placeNumbered? hline hplaced

/-! ### Loading lines in the order of their numbers -/

theorem toList_insert_of_lt {t : Std.TreeMap Nat String} {n : Nat} (h : ∀ e ∈ t.toList, e.1 < n)
    (text : String) : (t.insert n text).toList = t.toList ++ [(n, text)] := by
  have hfree : t.toList.filter (fun e => decide ¬(n == e.1) = true) = t.toList := by
    refine List.filter_eq_self.2 fun e he => ?_
    simpa using (Nat.ne_of_lt (h e he)).symm
  have hperm : (t.insert n text).toList.Perm (t.toList ++ [(n, text)]) := by
    have hinsert := Std.TreeMap.toList_insert_perm (t := t) (k := n) (v := text)
    rw [hfree] at hinsert
    exact hinsert.trans (List.perm_append_singleton _ _).symm
  have hsorted (t : Std.TreeMap Nat String) : t.toList.Pairwise fun a b => a.1 < b.1 :=
    Std.TreeMap.ordered_keys_toList.imp Nat.compare_eq_lt.1
  refine hperm.eq_of_pairwise (fun a b _ _ hab hba => absurd hab (Nat.lt_asymm hba)) (hsorted _) ?_
  refine List.pairwise_append.2 ⟨hsorted t, List.pairwise_singleton _ _, fun a ha b hb => ?_⟩
  rw [List.mem_singleton.1 hb]
  exact h a ha

theorem toList_erase_of_lt {t : Std.TreeMap Nat String} {n : Nat} (h : ∀ e ∈ t.toList, e.1 < n) :
    (t.erase n).toList = t.toList := by
  have hequiv : (t.erase n).Equiv t := by
    refine .of_forall_constGet?_eq fun k => ?_
    rw [Std.TreeMap.getElem?_erase]
    split
    · rename_i heq
      obtain rfl := Nat.compare_eq_eq.1 heq
      cases hget : t[n]? with
      | none => rfl
      | some text =>
        exact absurd (h (n, text) (Std.TreeMap.mem_toList_iff_getElem?_eq_some.2 hget))
          (Nat.lt_irrefl n)
    · rfl
  exact hequiv.toList_eq

/-- A line of a listing, and what it becomes when the listing is loaded from its text: its own number
stays, and a number that it was given does not grow. -/
structure Reloads (old new : Nat × String) : Prop where
  text : new.2 = old.2
  own : ∀ n rest, leadingNumber? old.2.toList = some (n, rest) → old.1 = n ∧ new.1 = n
  given : leadingNumber? old.2.toList = none → new.1 ≤ old.1

/-- A listing whose lines have numbers that were given out. -/
def Bounded (l : Listing) : Prop :=
  ∀ e ∈ l.toList, e.1 ≤ l.last

/-- A number past all lines of a listing and, unless it is zero, past all that were given out. -/
structure Past (l : Listing) (n : Nat) : Prop where
  lines : ∀ e ∈ l.toList, e.1 < n
  last : 0 < n → l.last < n

/-- A line that comes in the order of the old numbers, and the line that it becomes, if it is not a
number alone: the old numbers of the lines behind it are past the new listing again. -/
structure Follows (l : Listing) (e : Nat × String) (new : List (Nat × String)) : Prop where
  toList : (l.place e.2.toList).toList = l.toList ++ new
  bounded : (l.place e.2.toList).Bounded
  past : ∀ n, e.1 < n → l.Past n → (l.place e.2.toList).Past n

theorem Follows.of_insert {e : Nat × String} {n : Nat} (hl : l.Bounded) (hn : n ≤ e.1)
    (hfree : ∀ e' ∈ l.toList, e'.1 < n)
    (h : l.place e.2.toList = ⟨l.lines.insert n e.2, max l.last n⟩) : l.Follows e [(n, e.2)] := by
  have hlist : (l.place e.2.toList).toList = l.toList ++ [(n, e.2)] := by
    rw [h]
    exact toList_insert_of_lt hfree e.2
  have hlast : (l.place e.2.toList).last = max l.last n := by rw [h]
  refine ⟨hlist, fun e' he' => ?_, fun k hk hpast => ⟨fun e' he' => ?_, fun hpos => ?_⟩⟩
  · rw [hlist, List.mem_append, List.mem_singleton] at he'
    rw [hlast]
    rcases he' with he' | rfl
    · exact Nat.le_trans (hl e' he') (Nat.le_max_left _ _)
    · exact Nat.le_max_right _ _
  · rw [hlist, List.mem_append, List.mem_singleton] at he'
    rcases he' with he' | rfl
    · exact hpast.lines e' he'
    · exact Nat.lt_of_le_of_lt hn hk
  · rw [hlast]
    exact Nat.max_lt.2 ⟨hpast.last hpos, Nat.lt_of_le_of_lt hn hk⟩

theorem follows_of_hasText {e : Nat × String} (hl : l.Bounded) (hpast : l.Past e.1)
    (hfits : Fits e.1 e.2.toList) (htext : HasText e.2.toList) :
    ∃ n, l.Follows e [(n, e.2)] ∧ Reloads e (n, e.2) := by
  have hplace := place_eq l htext
  cases hnumber : leadingNumber? e.2.toList with
  | none =>
    have hlast := hpast.last (hfits.given hnumber)
    rw [Placed.ofLine_of_none hfits.ne_dot hnumber, String.ofList_toList] at hplace
    refine ⟨l.last + 1, .of_insert hl hlast (fun e' he' => Nat.lt_succ_of_le (hl e' he')) hplace,
      rfl, fun n rest h => ?_, fun _ => hlast⟩
    cases hnumber.symm.trans h
  | some found =>
    obtain ⟨n, rest⟩ := found
    have hn := hfits.number n rest hnumber
    rw [Placed.ofLine_of_number hnumber, String.ofList_toList, hn] at hplace
    refine ⟨e.1, .of_insert hl (Nat.le_refl _) hpast.lines hplace, rfl, fun k rest' h => ?_,
      fun h => ?_⟩
    · cases hnumber.symm.trans h
      exact ⟨hn.symm, hn.symm⟩
    · cases hnumber.symm.trans h

/-- A number alone deletes nothing, because there is no line of that number yet. -/
theorem follows_of_not_hasText {e : Nat × String} (hl : l.Bounded) (hpast : l.Past e.1)
    (hfits : Fits e.1 e.2.toList) (htext : ¬HasText e.2.toList) : l.Follows e [] := by
  obtain ⟨⟨n, rest⟩, hnumber, hrest⟩ := Option.map_eq_some_iff.1 (Decidable.not_not.1 htext)
  obtain rfl : rest = [] := hrest
  have hplace : l.place e.2.toList = ⟨l.lines.erase e.1, max l.last e.1⟩ := by
    rw [place, placeNumbered?_of_ne_dot l hfits.ne_dot, hnumber, hfits.number n [] hnumber]
    rfl
  have hlist : (l.place e.2.toList).toList = l.toList := by
    rw [hplace]
    exact toList_erase_of_lt hpast.lines
  have hlast : (l.place e.2.toList).last = max l.last e.1 := by rw [hplace]
  refine ⟨by rw [hlist, List.append_nil], fun e' he' => ?_,
    fun k hk hpast => ⟨fun e' he' => ?_, fun hpos => ?_⟩⟩
  · rw [hlist] at he'
    exact hlast ▸ Nat.le_trans (hl e' he') (Nat.le_max_left _ _)
  · rw [hlist] at he'
    exact hpast.lines e' he'
  · exact hlast ▸ Nat.max_lt.2 ⟨hpast.last hpos, hk⟩

theorem foldl_place_reloads {es : List (Nat × String)} (hsorted : es.Pairwise fun a b => a.1 < b.1)
    (hfits : ∀ e ∈ es, Fits e.1 e.2.toList) (hl : l.Bounded) (hpast : ∀ e ∈ es, l.Past e.1) :
    ∃ new, ((es.map (·.2.toList)).foldl place l).toList = l.toList ++ new ∧
      List.Forall₂ Reloads (es.filter fun e => HasText e.2.toList) new := by
  induction es generalizing l with
  | nil => exact ⟨[], (List.append_nil _).symm, .nil⟩
  | cons e es ih =>
    obtain ⟨hless, hsorted⟩ := List.pairwise_cons.1 hsorted
    obtain ⟨hfit, hfits⟩ := List.forall_mem_cons.1 hfits
    obtain ⟨hfirst, hpast⟩ := List.forall_mem_cons.1 hpast
    have hrest {new : List (Nat × String)} (hfollows : l.Follows e new) :=
      ih hsorted hfits hfollows.bounded fun e' he' => hfollows.past _ (hless e' he') (hpast e' he')
    rw [List.map_cons, List.foldl_cons]
    by_cases htext : HasText e.2.toList
    · obtain ⟨n, hfollows, hreloads⟩ := follows_of_hasText hl hfirst hfit htext
      obtain ⟨new, hdone, hnew⟩ := hrest hfollows
      refine ⟨(n, e.2) :: new, ?_, ?_⟩
      · rw [hdone, hfollows.toList, List.append_assoc, List.singleton_append]
      · rw [List.filter_cons_of_pos (by simpa using htext)]
        exact .cons hreloads hnew
    · have hfollows := follows_of_not_hasText hl hfirst hfit htext
      obtain ⟨new, hdone, hnew⟩ := hrest hfollows
      refine ⟨new, by rw [hdone, hfollows.toList, List.append_nil], ?_⟩
      rwa [List.filter_cons_of_neg (by simpa using htext)]

/-! ### The text of a listing -/

theorem toList_source (l : Listing) :
    l.source.toList = ['\n'].intercalate (l.toList.map (·.2.toList)) := by
  simp [source, range, Function.comp_def]

theorem Fitting.programLines_source (hl : l.Fitting) :
    programLines (l.source ++ "\n") = l.toList.map (·.2.toList) := by
  have hfits : ∀ line ∈ l.toList.map (·.2.toList), ∃ n, Fits n line := by
    intro line hline
    obtain ⟨e, he, rfl⟩ := List.mem_map.1 hline
    exact ⟨e.1, hl e.1 e.2 (Std.TreeMap.mem_toList_iff_getElem?_eq_some.1 he)⟩
  have htext : (l.source ++ "\n").toList =
      ['\n'].intercalate (l.toList.map (·.2.toList)) ++ ['\n'] := by
    rw [String.toList_append, toList_source]
    rfl
  rw [programLines, htext]
  change List.filter isProgramLine _ = _
  by_cases hempty : l.toList.map (·.2.toList) = []
  · rw [hempty]
    rfl
  · rw [lines_intercalate_feed (fun line hline => (hfits line hline).elim fun _ h => h.isLine) hempty]
    exact List.filter_eq_self.2 fun line hline => (hfits line hline).elim fun _ h => h.program

theorem Fitting.reloads (hl : l.Fitting) :
    List.Forall₂ Reloads (l.toList.filter fun e => HasText e.2.toList)
      (ofSource (l.source ++ "\n")).toList := by
  have hsorted : l.toList.Pairwise fun a b => a.1 < b.1 :=
    Std.TreeMap.ordered_keys_toList.imp Nat.compare_eq_lt.1
  have hempty : ({} : Listing).toList = [] := rfl
  have hnone {P : Nat × String → Prop} : ∀ e ∈ ({} : Listing).toList, P e := by
    rw [hempty]
    nofun
  obtain ⟨new, hdone, hreloads⟩ := foldl_place_reloads (l := {}) hsorted
    (fun e he => hl e.1 e.2 (Std.TreeMap.mem_toList_iff_getElem?_eq_some.1 he))
    hnone fun e _ => ⟨hnone, fun hpos => hpos⟩
  rw [hempty, List.nil_append] at hdone
  rwa [ofSource, hl.programLines_source, hdone]

end Listing

/-! ### Files -/

namespace Terminal.Directory

variable {d d' : Directory}

/-- What a path leads to for writing, it leads to for reading once it is written. -/
theorem walk_insert {slashed : Bool} {folder : Folder} {names : List String} {file : String}
    (h : d.walk .writing slashed folder names = .ok file) (content : String) :
    Directory.walk ⟨d.files.insert file content⟩ .reading slashed folder names = .ok file := by
  induction names generalizing folder with
  | nil => cases h
  | cons name rest ih =>
    rw [walk] at h ⊢
    split at h
    · rename_i hdot
      rw [if_pos hdot]
      exact ih h
    · rename_i hdot
      rw [if_neg hdot]
      split at h
      · rename_i hdots
        rw [if_pos hdots]
        exact ih h
      · rename_i hdots
        rw [if_neg hdots]
        split at h
        · cases h
        · split at h
          · cases h
          · rename_i hlong
            dsimp only at h ⊢
            split at h
            · rename_i hlast
              rw [if_pos (by simp)] at h
              cases h
              simp [hlong, hlast]
            · cases h

theorem resolve_insert {path file : String} (h : d.resolve .writing path = .ok file)
    (content : String) :
    Directory.resolve ⟨d.files.insert file content⟩ .reading path = .ok file := by
  unfold resolve at h ⊢
  split at h
  · cases h
  · rename_i hnul
    rw [if_neg hnul]
    split at h
    · cases h
    · rename_i hempty
      rw [if_neg hempty]
      split at h
      · cases h
      · rename_i hlong
        rw [if_neg hlong]
        exact walk_insert h content

theorem load_of_save {l : Listing} {name : String} (h : d.save l name = .ok d') :
    d'.load name = .ok (.ofSource (l.source ++ "\n")) := by
  have hwritten : d.write (filePath name) (l.source ++ "\n") = .ok d' := by
    unfold save savedText at h
    split at h
    · cases h
    · change (d.write (filePath name) (l.source ++ "\n")).mapError _ = .ok d' at h
      revert h
      cases d.write (filePath name) (l.source ++ "\n") with
      | error fault => nofun
      | ok d'' => exact fun h => congrArg Except.ok (Except.ok.inj h)
  unfold write at hwritten
  cases hfile : d.resolve .writing (filePath name) with
  | error fault =>
    rw [hfile] at hwritten
    cases hwritten
  | ok file =>
    rw [hfile] at hwritten
    cases hwritten
    have hread : read ⟨d.files.insert file (l.source ++ "\n")⟩ (filePath name) =
        .ok (l.source ++ "\n") := by
      unfold read
      rw [resolve_insert hfile]
      simp only [bind, Except.bind, Std.TreeMap.getElem?_insert_self]
      rfl
    unfold load
    dsimp only
    rw [hread]
    rfl

end Terminal.Directory

namespace Listing

/-- A listing of a text, with lines typed at a prompt, is saved and loaded: its lines come back in
their order, all but those that are only a number, and under the numbers that they start with; the
others come back under numbers that are no larger. -/
theorem reload_keeps_lines {source : String} (hreturn : loneReturn source.toList = false)
    {typed : List (List Char)} (htyped : ∀ line ∈ typed, Text.trim line = line ∧ '\n' ∉ line) :
    let l := typed.foldl type (ofSource source)
    List.Forall₂ Reloads (l.toList.filter fun e => HasText e.2.toList)
        (ofSource (l.source ++ "\n")).toList ∧
      ∀ (d d' : Terminal.Directory) (name : String), d.save l name = .ok d' →
        d'.load name = .ok (ofSource (l.source ++ "\n")) := by
  have hlines : ∀ line ∈ typed, IsLine line :=
    fun line hline => isLine_of_trim (htyped line hline).1 (htyped line hline).2
  have hfitting := (fitting_ofSource hreturn).typeAll hlines
  exact ⟨hfitting.reloads, fun _ _ _ hsave => Terminal.Directory.load_of_save hsave⟩

/-- Line 100 is deleted, so that the line behind it moves up, and the line of a lone dot is lost. -/
theorem reload_keeps_lines_gaps :
    let l := ["5 a\rb".toList, "100".toList].foldl type
      (ofSource "0 rem\nx = 1\r\n100 print x\ny = 2\n.\n. end")
    l.toList = [(0, "0 rem"), (1, "x = 1"), (5, "5 a\rb"), (101, "y = 2"), (111, "111 "),
      (121, "121 end")] ∧
    (ofSource (l.source ++ "\n")).toList =
      [(0, "0 rem"), (1, "x = 1"), (5, "5 a\rb"), (6, "y = 2"), (121, "121 end")] ∧
    List.Forall₂ Reloads (l.toList.filter fun e => HasText e.2.toList)
      (ofSource (l.source ++ "\n")).toList :=
  ⟨by decide +kernel, by decide +kernel, (reload_keeps_lines (by decide +kernel) (by decide +kernel)).1⟩

end Listing

end LineBasic
