import LineBasic.Proofs.DeepCopies

/-!
# What the text of a value shows

A container may hold itself, so its text cannot show everything that can be reached from it. A counter
of the containers around a value says when to stop: it is raised for the inside of each container and
set back behind it, and a container that comes at the fourth level or is being written to is left out.
Main statement: writing a value down in this way comes to an end in every heap, gives one text and
leaves the counter as it was, and the text shows the values along all paths of at most four steps, each
of the containers in full or left out.
-/

namespace LineBasic

set_option autoImplicit false

/-- What a text shows of a value. -/
inductive Picture where
  | plain (text : String)
  /-- A container that is left out. -/
  | elided (kind : Kind)
  | array (items : List Picture)
  | map (keys : List String) (items : List Picture)

namespace Picture

def text : Picture → String
  | plain text => text
  | elided .array => "[...]"
  | elided .map => "\x7b...\x7d"
  | array items => "[" ++ ", ".intercalate (items.map fun item => item.text) ++ "]"
  | map keys items =>
    let entries := keys.zipWith (· ++ ": " ++ ·) (items.map fun item => item.text)
    "\x7b" ++ ", ".intercalate entries ++ "\x7d"

/-- The part of a picture to which a path leads. -/
inductive Part : Picture → List Link → Picture → Prop where
  | whole (p : Picture) : Part p [] p
  | cell {items : List Picture} {i : Nat} {item part : Picture} {path : List Link}
      (hitem : items[i]? = some item) (hpart : Part item path part) :
      Part (array items) (.cell i :: path) part
  | entry {keys : List String} {items : List Picture} {i : Nat} {key : String} {item part : Picture}
      {path : List Link} (hkey : keys[i]? = some key) (hitem : items[i]? = some item)
      (hpart : Part item path part) : Part (map keys items) (.entry key :: path) part

end Picture

/-- The text of a value that is no container. -/
def Value.plainText : Value → String
  | .number x => Number.text x
  | .text s => s
  | .bool b => boolText b
  | .mark c => c.toString
  | .name s => s
  | .array _ | .map _ => ""

namespace Heap

/-- One value after the other is drawn, each with the counter that the one before it left. -/
inductive InTurn {α β : Type} (R : Nat → α → β → Nat → Prop) :
    Nat → List α → List β → Nat → Prop where
  | nil (d : Nat) : InTurn R d [] [] d
  | cons {d d₁ d₂ : Nat} {a : α} {b : β} {as : List α} {bs : List β} (first : R d a b d₁)
      (rest : InTurn R d₁ as bs d₂) : InTurn R d (a :: as) (b :: bs) d₂

/-- Whether a container is the array that is being written to. -/
def IsBusy (busy : Option Ref) (k : Kind) (r : Ref) : Prop :=
  k = .array ∧ busy = some r

/-- With the counter at `d`, a value is drawn as a picture, and then the counter is at `d'`. The array
`busy` is being written to. -/
inductive Draws (h : Heap) (busy : Option Ref) : Nat → Value → Picture → Nat → Prop where
  | plain {d : Nat} {v : Value} (scalar : v.ref? = none) : Draws h busy d v (.plain v.plainText) d
  | elided {d : Nat} {k : Kind} {r : Ref} (stop : shownLevels ≤ d ∨ IsBusy busy k r) :
      Draws h busy d (k.value r) (.elided k) d
  | array {d d' : Nat} {r : Ref} {items : List Picture} (level : d < shownLevels)
      (free : ¬IsBusy busy .array r)
      (inside : InTurn (Draws h busy) (d + 1) (h.contents (.array r)) items d') :
      Draws h busy d (.array r) (.array items) d
  | map {d d' : Nat} {r : Ref} {items : List Picture} (level : d < shownLevels)
      (inside : InTurn (Draws h busy) (d + 1) (h.contents (.map r)) items d') :
      Draws h busy d (.map r) (.map (h.dict r).entries.keys items) d

/-- How a value appears that has `n` containers around it. -/
inductive Depicts (h : Heap) (busy : Option Ref) : Nat → Value → Picture → Prop where
  | plain {n : Nat} {v : Value} (level : n ≤ shownLevels) (scalar : v.ref? = none) :
      Depicts h busy n v (.plain v.plainText)
  | deep {k : Kind} {r : Ref} : Depicts h busy shownLevels (k.value r) (.elided k)
  | busy {n : Nat} {k : Kind} {r : Ref} (level : n < shownLevels) (stop : IsBusy busy k r) :
      Depicts h busy n (k.value r) (.elided k)
  | array {n : Nat} {r : Ref} {items : List Picture} (level : n < shownLevels)
      (free : ¬IsBusy busy .array r) (full : items.length = (h.grid r).size) :
      Depicts h busy n (.array r) (.array items)
  | map {n : Nat} {r : Ref} {items : List Picture} (level : n < shownLevels)
      (full : items.length = (h.dict r).size) :
      Depicts h busy n (.map r) (.map (h.dict r).entries.keys items)

/-- A picture shows a value: whatever it shows is to be found there and looks as its level wants it,
and nothing is missing but what is deeper or inside the array that is being written to. -/
structure Shows (h : Heap) (busy : Option Ref) (v : Value) (p : Picture) : Prop where
  sound : ∀ path part, p.Part path part →
    ∃ w, h.follow? v path = some w ∧ h.Depicts busy path.length w part
  complete : ∀ path w, path.length ≤ shownLevels → h.follow? v path = some w →
    (∀ front back r, path = front ++ back → back ≠ [] → h.follow? v front = some (.array r) →
      busy ≠ some r) →
    ∃ part, p.Part path part

/-! ### The picture as a function -/

section

variable (h : Heap) (busy : Option Ref)

/-- What is shown of a value on `levels` levels. -/
def picture : Nat → Value → Picture
  | levels + 1, .array r =>
    if busy = some r then .elided .array
    else .array ((h.contents (.array r)).map (picture levels))
  | levels + 1, .map r => .map (h.dict r).entries.keys ((h.contents (.map r)).map (picture levels))
  | 0, .array _ => .elided .array
  | 0, .map _ => .elided .map
  | _, v => .plain v.plainText

theorem picture_scalar (levels : Nat) {v : Value} (hv : v.ref? = none) :
    h.picture busy levels v = .plain v.plainText := by
  cases v with
  | array => cases hv
  | map => cases hv
  | _ => cases levels <;> rfl

theorem picture_elided {levels : Nat} {k : Kind} {r : Ref} (hstop : levels = 0 ∨ IsBusy busy k r) :
    h.picture busy levels (k.value r) = .elided k := by
  rcases hstop with rfl | ⟨rfl, hbusy⟩
  · cases k <;> rfl
  · cases levels with
    | zero => rfl
    | succ levels => exact if_pos hbusy

theorem picture_array (levels : Nat) {r : Ref} (hfree : ¬IsBusy busy .array r) :
    h.picture busy (levels + 1) (.array r) =
      .array ((h.contents (.array r)).map (h.picture busy levels)) :=
  if_neg fun hbusy => hfree ⟨rfl, hbusy⟩

/-- All that the picture of a value on some levels can be. -/
inductive Pictured : Nat → Value → Picture → Prop where
  | plain {levels : Nat} {v : Value} (scalar : v.ref? = none) :
      Pictured levels v (.plain v.plainText)
  | elided {levels : Nat} {k : Kind} {r : Ref} (stop : levels = 0 ∨ IsBusy busy k r) :
      Pictured levels (k.value r) (.elided k)
  | array {levels : Nat} {r : Ref} (free : ¬IsBusy busy .array r) :
      Pictured (levels + 1) (.array r)
        (.array ((h.contents (.array r)).map (h.picture busy levels)))
  | map {levels : Nat} {r : Ref} :
      Pictured (levels + 1) (.map r)
        (.map (h.dict r).entries.keys ((h.contents (.map r)).map (h.picture busy levels)))

theorem pictured (levels : Nat) (v : Value) : h.Pictured busy levels v (h.picture busy levels v) := by
  cases hv : v.ref? with
  | none =>
    rw [picture_scalar h busy levels hv]
    exact .plain hv
  | some c =>
    obtain ⟨k, r⟩ := c
    obtain rfl := Value.eq_of_ref? hv
    by_cases hstop : levels = 0 ∨ IsBusy busy k r
    · rw [picture_elided h busy hstop]
      exact .elided hstop
    · obtain ⟨hlevels, hfree⟩ := not_or.mp hstop
      obtain ⟨levels, rfl⟩ := Nat.exists_eq_succ_of_ne_zero hlevels
      cases k with
      | array =>
        rw [Kind.value, picture_array h busy levels hfree]
        exact .array hfree
      | map => exact .map

theorem text_picture (levels : Nat) (v : Value) :
    (h.picture busy levels v).text = h.displayWithin busy levels v := by
  induction levels generalizing v with
  | zero =>
    cases v with
    | _ => simp [picture, displayWithin, Picture.text, Value.plainText]
  | succ levels ih =>
    cases v with
    | array r =>
      by_cases hbusy : busy = some r
      · simp [picture, displayWithin, Picture.text, hbusy]
      · simp [picture, displayWithin, Picture.text, hbusy, contents, ih, Function.comp_def]
    | map r =>
      simp [picture, displayWithin, Picture.text, contents, ih, Function.comp_def, Dict.values,
        Dict.toList, ← Std.TreeMap.map_fst_toList_eq_keys]
    | _ => simp [picture, displayWithin, Picture.text, Value.plainText]

end

/-! ### Drawing ends -/

theorem inTurn_iff {α β : Type} {R : Nat → α → β → Nat → Prop} {f : α → β} {d : Nat}
    (hR : ∀ a b d', R d a b d' ↔ b = f a ∧ d' = d) (as : List α) (bs : List β) (d' : Nat) :
    InTurn R d as bs d' ↔ bs = as.map f ∧ d' = d := by
  induction as generalizing bs with
  | nil =>
    constructor
    · rintro ⟨⟩
      exact ⟨rfl, rfl⟩
    · rintro ⟨rfl, rfl⟩
      exact .nil _
  | cons a as ih =>
    constructor
    · rintro ⟨⟩
      rename_i d₁ b bs first rest
      obtain ⟨rfl, rfl⟩ := (hR a b d₁).mp first
      obtain ⟨rfl, rfl⟩ := (ih bs).mp rest
      exact ⟨rfl, rfl⟩
    · rintro ⟨rfl, rfl⟩
      exact .cons ((hR a _ d').mpr ⟨rfl, rfl⟩) ((ih _).mpr ⟨rfl, rfl⟩)

/-- With the counter at `d`, what is drawn is the picture on the levels that are left. -/
theorem draws_iff (h : Heap) (busy : Option Ref) (d : Nat) (v : Value) (p : Picture) (d' : Nat) :
    h.Draws busy d v p d' ↔ p = h.picture busy (shownLevels - d) v ∧ d' = d := by
  -- the induction is on the levels that are left: inside of a container there is one less
  have hinside (level : d < shownLevels) (vs : List Value) (items : List Picture) (d' : Nat) :
      InTurn (h.Draws busy) (d + 1) vs items d' ↔
        items = vs.map (h.picture busy (shownLevels - (d + 1))) ∧ d' = d + 1 :=
    inTurn_iff (fun v p d' => draws_iff h busy (d + 1) v p d') vs items d'
  constructor
  · intro hdraws
    cases hdraws with
    | plain scalar => exact ⟨(h.picture_scalar busy _ scalar).symm, rfl⟩
    | elided stop =>
      have hstop := stop.imp_left Nat.sub_eq_zero_of_le
      exact ⟨(h.picture_elided busy hstop).symm, rfl⟩
    | array level free inside =>
      obtain ⟨rfl, -⟩ := (hinside level _ _ _).mp inside
      rw [← Nat.succ_pred_eq_of_pos (Nat.sub_pos_of_lt level)]
      exact ⟨(h.picture_array busy _ free).symm, rfl⟩
    | map level inside =>
      obtain ⟨rfl, -⟩ := (hinside level _ _ _).mp inside
      rw [← Nat.succ_pred_eq_of_pos (Nat.sub_pos_of_lt level)]
      exact ⟨rfl, rfl⟩
  · rintro ⟨rfl, rfl⟩
    have hview := h.pictured busy (shownLevels - d') v
    generalize h.picture busy (shownLevels - d') v = p at hview
    generalize hlevels : shownLevels - d' = levels at hview
    cases hview with
    | plain scalar => exact .plain scalar
    | elided stop => exact .elided (stop.imp_left fun hzero => Nat.le_of_sub_eq_zero (hlevels.trans hzero))
    | @array levels r free =>
      have level : d' < shownLevels := by omega
      obtain rfl : shownLevels - (d' + 1) = levels := by omega
      exact .array level free ((hinside level _ _ _).mpr ⟨rfl, rfl⟩)
    | @map levels r =>
      have level : d' < shownLevels := by omega
      obtain rfl : shownLevels - (d' + 1) = levels := by omega
      exact .map level ((hinside level _ _ _).mpr ⟨rfl, rfl⟩)
termination_by shownLevels - d

/-! ### Paths through a picture -/

section

variable {h : Heap} {busy : Option Ref} {v w : Value} {path : List Link} {levels : Nat}

theorem follow?_cell {r : Ref} {i : Nat} {u : Value} (hu : (h.contents (.array r))[i]? = some u)
    (path : List Link) : h.follow? (.array r) (.cell i :: path) = h.follow? u path := by
  have helement : h.element? (.cell r i) = some u := by
    rw [element?, ← Array.getElem?_toList]
    exact hu
  simp [follow?, Value.slot?, helement]

theorem getElem?_toList {r : Ref} {i : Nat} {key : String} {u : Value} :
    (h.dict r).entries.toList[i]? = some (key, u) ↔
      (h.dict r).entries.keys[i]? = some key ∧ (h.contents (.map r))[i]? = some u := by
  rw [← Std.TreeMap.map_fst_toList_eq_keys, contents, Dict.values, Dict.toList,
    List.getElem?_map, List.getElem?_map]
  cases (h.dict r).entries.toList[i]? with
  | none => simp
  | some e => simp [Prod.ext_iff]

theorem follow?_entry {r : Ref} {i : Nat} {key : String} {u : Value}
    (hkey : (h.dict r).entries.keys[i]? = some key) (hu : (h.contents (.map r))[i]? = some u)
    (path : List Link) : h.follow? (.map r) (.entry key :: path) = h.follow? u path := by
  have helement : h.element? (.entry r key) = some u := by
    rw [element?, ← Std.TreeMap.mem_toList_iff_getElem?_eq_some]
    exact List.mem_of_getElem? (getElem?_toList.mpr ⟨hkey, hu⟩)
  simp [follow?, Value.slot?, helement]

theorem follow?_cons_cases {link : Link} (hw : h.follow? v (link :: path) = some w) :
    (∃ (r : Ref) (i : Nat) (u : Value), v = .array r ∧ link = .cell i ∧
      (h.contents (.array r))[i]? = some u ∧ h.follow? u path = some w) ∨
    ∃ (r : Ref) (i : Nat) (key : String) (u : Value), v = .map r ∧ link = .entry key ∧
      (h.dict r).entries.keys[i]? = some key ∧ (h.contents (.map r))[i]? = some u ∧
      h.follow? u path = some w := by
  obtain ⟨u, hslot, hrest⟩ := Option.bind_eq_some_iff.mp hw
  obtain ⟨slot, hslot, hu⟩ := Option.bind_eq_some_iff.mp hslot
  cases v with
  | array r =>
    cases link with
    | cell i =>
      cases hslot
      rw [element?, ← Array.getElem?_toList] at hu
      exact .inl ⟨r, i, u, rfl, rfl, hu, hrest⟩
    | entry key => cases hslot
  | map r =>
    cases link with
    | cell i => cases hslot
    | entry key =>
      cases hslot
      rw [element?, ← Std.TreeMap.mem_toList_iff_getElem?_eq_some] at hu
      obtain ⟨i, hi⟩ := List.mem_iff_getElem?.mp hu
      obtain ⟨hkey, hitem⟩ := getElem?_toList.mp hi
      exact .inr ⟨r, i, key, u, rfl, rfl, hkey, hitem, hrest⟩
  | _ => cases link <;> cases hslot

theorem depicts_picture {n : Nat} (hlevels : n + levels = shownLevels) :
    h.Depicts busy n v (h.picture busy levels v) := by
  have hview := h.pictured busy levels v
  generalize h.picture busy levels v = p at hview
  cases hview with
  | plain scalar => exact .plain (by omega) scalar
  | elided stop =>
    by_cases hzero : levels = 0
    · obtain rfl : n = shownLevels := by omega
      exact .deep
    · exact .busy (by omega) (stop.resolve_left hzero)
  | array free =>
    refine .array (by omega) free ?_
    rw [List.length_map, contents, Array.length_toList, Grid.size]
  | map =>
    refine .map (by omega) ?_
    rw [List.length_map, contents, Dict.values, List.length_map, Dict.toList,
      Std.TreeMap.length_toList, Dict.size]

/-- What a picture shows is found along the same path, with so many more containers around it. -/
theorem exists_of_part {n : Nat} {part : Picture} (hlevels : n + levels = shownLevels)
    (hpart : (h.picture busy levels v).Part path part) :
    ∃ w, h.follow? v path = some w ∧ h.Depicts busy (n + path.length) w part := by
  -- along the path the containers around a value and the levels below it stay as many together
  induction path generalizing levels n v with
  | nil =>
    have hdepicts : h.Depicts busy n v (h.picture busy levels v) := depicts_picture hlevels
    generalize h.picture busy levels v = p at hpart hdepicts
    cases hpart
    exact ⟨v, rfl, hdepicts⟩
  | cons link path ih =>
    have hview := h.pictured busy levels v
    generalize h.picture busy levels v = p at hview hpart
    rw [List.length_cons, Nat.add_comm path.length, ← Nat.add_assoc]
    cases hview with
    | plain => cases hpart
    | elided => cases hpart
    | @array levels r free =>
      cases hpart with
      | cell hitem hpart =>
        rw [List.getElem?_map] at hitem
        obtain ⟨u, hu, rfl⟩ := Option.map_eq_some_iff.mp hitem
        rw [follow?_cell hu]
        exact ih (by omega) hpart
    | @map levels r =>
      cases hpart with
      | entry hkey hitem hpart =>
        rw [List.getElem?_map] at hitem
        obtain ⟨u, hu, rfl⟩ := Option.map_eq_some_iff.mp hitem
        rw [follow?_entry hkey hu]
        exact ih (by omega) hpart

/-- What is found along a path of few steps is shown, unless the path leads through the array that is
being written to. -/
theorem exists_part (hlength : path.length ≤ levels) (hw : h.follow? v path = some w)
    (hfree : ∀ front back r, path = front ++ back → back ≠ [] →
      h.follow? v front = some (.array r) → busy ≠ some r) :
    ∃ part, (h.picture busy levels v).Part path part := by
  induction path generalizing levels v with
  | nil => exact ⟨_, .whole _⟩
  | cons link path ih =>
    obtain ⟨levels, rfl⟩ : ∃ n, levels = n + 1 :=
      Nat.exists_eq_succ_of_ne_zero (Nat.ne_zero_of_lt hlength)
    have hshort : path.length ≤ levels := Nat.le_of_succ_le_succ hlength
    rcases follow?_cons_cases hw with
      ⟨r, i, u, rfl, rfl, hu, hw⟩ | ⟨r, i, key, u, rfl, rfl, hkey, hu, hw⟩
    · -- the array in front of the first step is not the one that is written to
      have hopen : ¬IsBusy busy .array r := fun hbusy =>
        hfree [] (.cell i :: path) r rfl (List.cons_ne_nil _ _) rfl hbusy.2
      obtain ⟨part, hpart⟩ := ih hshort hw fun front back s hpath hback hfront =>
        hfree (.cell i :: front) back s (by rw [hpath]; rfl) hback
          ((follow?_cell hu front).trans hfront)
      rw [picture_array h busy levels hopen]
      exact ⟨part, .cell (by rw [List.getElem?_map, hu]; rfl) hpart⟩
    · obtain ⟨part, hpart⟩ := ih hshort hw fun front back s hpath hback hfront =>
        hfree (.entry key :: front) back s (by rw [hpath]; rfl) hback
          ((follow?_entry hkey hu front).trans hfront)
      exact ⟨part, .entry hkey (by rw [List.getElem?_map, hu]; rfl) hpart⟩

theorem shows_picture (h : Heap) (busy : Option Ref) (v : Value) :
    h.Shows busy v (h.picture busy shownLevels v) := by
  refine ⟨fun path part hpart => ?_, fun path w hlength hw hfree => exists_part hlength hw hfree⟩
  rw [← Nat.zero_add path.length]
  exact exists_of_part (Nat.zero_add _) hpart

end

/-! ### Values shown while an element is written -/

theorem setElement_array_error {h : Heap} {r : Ref} {keys : List Value} {value : Value} {e : Error}
    (he : h.setElement (.array r) keys value = .error e) :
    ∃ fault, (h.grid r).offset keys = .error fault ∧ e = indexError (h.displayWriting r) fault := by
  unfold setElement locate at he
  dsimp only at he
  cases hoffset : (h.grid r).offset keys with
  | ok offset =>
    rw [hoffset] at he
    cases he
  | error fault =>
    rw [hoffset] at he
    exact ⟨fault, rfl, (Except.error.inj he).symm⟩

theorem setElement_map_error {h : Heap} {r : Ref} {keys : List Value} {value : Value} {e : Error}
    (he : h.setElement (.map r) keys value = .error e) (h' : Heap) :
    h'.setElement (.map r) keys value = .error e := by
  unfold setElement locate at he ⊢
  dsimp only at he ⊢
  cases hkey : mapKey "key and value expected" keys with
  | ok key => simp [hkey, Except.map] at he
  | error e' => simpa [hkey, Except.map] using he

/-- Every value is written down in the end, in one way for each level that it is written on, and the
counter is left as it was, so that the same text comes out again. The text shows four levels, as it is
and while an array is being written to. A write that fails shows values only in the second way, and
not at all if it is a map that is written to. -/
theorem display_ends (h : Heap) (v : Value) :
    (∀ busy d, ∃ p, ∀ p' d', h.Draws busy d v p' d' ↔ p' = p ∧ d' = d) ∧
    (∀ busy d p d' p' d'', h.Draws busy d v p d' → h.Draws busy d' v p' d'' →
      p'.text = p.text ∧ d'' = d) ∧
    (∃ p, h.Draws none 0 v p 0 ∧ h.Shows none v p ∧ h.display v = p.text) ∧
    (∀ r, ∃ p, h.Draws (some r) 0 v p 0 ∧ h.Shows (some r) v p ∧ h.displayWriting r v = p.text) ∧
    (∀ r keys value e, h.setElement (.array r) keys value = .error e →
      ∃ fault, (h.grid r).offset keys = .error fault ∧ e = indexError (h.displayWriting r) fault) ∧
    ∀ r keys value e, h.setElement (.map r) keys value = .error e →
      ∀ h' : Heap, h'.setElement (.map r) keys value = .error e := by
  have hshown (busy : Option Ref) : ∃ p, h.Draws busy 0 v p 0 ∧ h.Shows busy v p ∧
      h.displayWithin busy shownLevels v = p.text :=
    ⟨_, (draws_iff h busy 0 v _ 0).mpr ⟨rfl, rfl⟩, h.shows_picture busy v,
      (h.text_picture busy shownLevels v).symm⟩
  refine ⟨fun busy d => ⟨_, draws_iff h busy d v⟩, ?_, hshown none, fun r => hshown (some r),
    fun r keys value e he => setElement_array_error he,
    fun r keys value e he h' => setElement_map_error he h'⟩
  intro busy d p d' p' d'' hfirst hagain
  obtain ⟨rfl, rfl⟩ := (draws_iff h busy d v p d').mp hfirst
  obtain ⟨rfl, rfl⟩ := (draws_iff h busy d' v p' d'').mp hagain
  exact ⟨rfl, rfl⟩

/-- An array that holds itself, as it is and as an index into itself. -/
theorem display_ends_cycle :
    let h : Heap := ⟨#[⟨[1], #[.array 0]⟩], #[]⟩
    (∃ p, h.Draws none 0 (.array 0) p 0 ∧ p.text = "[[[[[...]]]]]") ∧
    h.setElement (.array 0) [.array 0] (.number 1) =
      .error (.typeMismatch "[...] is not a valid index") ∧
    ∃ fault, (h.grid 0).offset [.array 0] = .error fault ∧
      Error.typeMismatch "[...] is not a valid index" = indexError (h.displayWriting 0) fault := by
  intro h
  obtain ⟨-, -, ⟨p, hdraws, -, htext⟩, -, hset, -⟩ := display_ends h (.array 0)
  have hshown : h.display (.array 0) = "[[[[[...]]]]]" := by decide +kernel
  have herror : h.setElement (.array 0) [.array 0] (.number 1) =
      .error (.typeMismatch "[...] is not a valid index") := rfl
  exact ⟨⟨p, hdraws, htext.symm.trans hshown⟩, herror, hset 0 _ _ _ herror⟩

end Heap

end LineBasic
