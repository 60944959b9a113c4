import Mathlib.Data.List.Forall2
import LineBasic.DataQueue
import LineBasic.Operation
import LineBasic.Scope

/-!
# Values up to renaming

Two heaps may hold the same containers in different places. A renaming pairs places of the one with
places of the other; paired containers hold paired values. Nothing that a program can see depends
on the places: texts, errors, comparisons and elements are the same on both sides.
-/

namespace LineBasic

set_option autoImplicit false

/-- The two kinds of containers, which are numbered apart. -/
inductive Kind where
  | array | map
deriving DecidableEq

/-- A one-to-one pairing of containers. -/
structure Renaming where
  rel : Kind → Ref → Ref → Prop
  one_to_one : ∀ {k r s r' s'}, rel k r s → rel k r' s' → (r = r' ↔ s = s')

def Renaming.Le (σ τ : Renaming) : Prop :=
  ∀ k r s, σ.rel k r s → τ.rel k r s

theorem Renaming.Le.trans {σ τ υ : Renaming} (h : σ.Le τ) (h' : τ.Le υ) : σ.Le υ :=
  fun k r s hr => h' k r s (h k r s hr)

/-- Results of two computations: both fail in the same way, or what they return is related. -/
inductive Except.Related {ε ζ α β : Type} (E : ε → ζ → Prop) (R : α → β → Prop) :
    Except ε α → Except ζ β → Prop where
  | ok {a : α} {b : β} : R a b → Related E R (.ok a) (.ok b)
  | error {e : ε} {e' : ζ} : E e e' → Related E R (.error e) (.error e')

namespace Except.Related

variable {ε ζ α β γ δ : Type} {E : ε → ζ → Prop} {R : α → β → Prop} {S : γ → δ → Prop}
  {x : Except ε α} {y : Except ζ β}

theorem map {f : α → γ} {g : β → δ} (h : Related E R x y) (hfg : ∀ a b, R a b → S (f a) (g b)) :
    Related E S (x.map f) (y.map g) := by
  cases h with
  | ok hab => exact .ok (hfg _ _ hab)
  | error he => exact .error he

theorem bind {f : α → Except ε γ} {g : β → Except ζ δ} (h : Related E R x y)
    (hfg : ∀ a b, R a b → Related E S (f a) (g b)) : Related E S (x >>= f) (y >>= g) := by
  cases h with
  | ok hab => exact hfg _ _ hab
  | error he => exact .error he

theorem of_eq {x y : Except ε α} (h : x = y) : Related Eq Eq x y := by
  subst h
  cases x with
  | ok a => exact .ok rfl
  | error e => exact .error rfl

end Except.Related

/-! ### Values -/

/-- The same value, but for the place of a container. -/
inductive Value.Rel (σ : Renaming) : Value → Value → Prop where
  | scalar {v : Value} (h : v.isContainer = false) : Rel σ v v
  | array {r s : Ref} (h : σ.rel .array r s) : Rel σ (.array r) (.array s)
  | map {r s : Ref} (h : σ.rel .map r s) : Rel σ (.map r) (.map s)

namespace Value.Rel

variable {σ τ : Renaming} {v w v' w' : Value}

theorem mono (hle : σ.Le τ) (h : Rel σ v w) : Rel τ v w := by
  cases h with
  | scalar h => exact .scalar h
  | array h => exact .array (hle _ _ _ h)
  | map h => exact .map (hle _ _ _ h)

theorem isContainer_eq (h : Rel σ v w) : v.isContainer = w.isContainer := by
  cases h <;> rfl

theorem typeName_eq (h : Rel σ v w) : v.typeName = w.typeName := by
  cases h <;> rfl

theorem isTruthy_eq (h : Rel σ v w) : v.isTruthy = w.isTruthy := by
  cases h <;> rfl

theorem toNumber?_eq (h : Rel σ v w) : v.toNumber? = w.toNumber? := by
  cases h <;> rfl

theorem key?_eq (h : Rel σ v w) : Dict.key? v = Dict.key? w := by
  cases h <;> rfl

theorem beq_eq {k : Kind} {r s r' s' : Ref} (h : σ.rel k r s) (h' : σ.rel k r' s') :
    (r == r') = (s == s') := by
  rw [Bool.eq_iff_iff, beq_iff_eq, beq_iff_eq]
  exact σ.one_to_one h h'

theorem same_array (hv : v.isContainer = false) (r : Ref) :
    v.same (.array r) = false ∧ (Value.array r).same v = false := by
  cases v with
  | array => cases hv
  | map => cases hv
  | _ => exact ⟨rfl, rfl⟩

theorem same_map (hv : v.isContainer = false) (r : Ref) :
    v.same (.map r) = false ∧ (Value.map r).same v = false := by
  cases v with
  | array => cases hv
  | map => cases hv
  | _ => exact ⟨rfl, rfl⟩

theorem same_eq (h : Rel σ v w) (h' : Rel σ v' w') : v.same v' = w.same w' := by
  cases h with
  | scalar hv =>
    cases h' with
    | scalar => rfl
    | array => rw [(same_array hv _).1, (same_array hv _).1]
    | map => rw [(same_map hv _).1, (same_map hv _).1]
  | array hr =>
    cases h' with
    | scalar hv => rw [(same_array hv _).2, (same_array hv _).2]
    | array hr' => exact beq_eq hr hr'
    | map => rfl
  | map hr =>
    cases h' with
    | scalar hv => rw [(same_map hv _).2, (same_map hv _).2]
    | array => rfl
    | map hr' => exact beq_eq hr hr'

theorem looselyEqual_container (hv : v.isContainer) :
    looselyEqual v w = v.same w ∧ looselyEqual w v = w.same v := by
  cases v with
  | array => cases w <;> exact ⟨rfl, rfl⟩
  | map => cases w <;> exact ⟨rfl, rfl⟩
  | _ => cases hv

theorem looselyEqual_eq (h : Rel σ v w) (h' : Rel σ v' w') :
    looselyEqual v v' = looselyEqual w w' := by
  have hsame := h.same_eq h'
  cases h with
  | scalar hv =>
    cases h' with
    | scalar => rfl
    | array => rwa [(looselyEqual_container rfl).2, (looselyEqual_container rfl).2]
    | map => rwa [(looselyEqual_container rfl).2, (looselyEqual_container rfl).2]
  | array => rwa [(looselyEqual_container rfl).1, (looselyEqual_container rfl).1]
  | map => rwa [(looselyEqual_container rfl).1, (looselyEqual_container rfl).1]

end Value.Rel

/-! ### Lists and tables -/

theorem optionRel_imp {α β : Type} {R S : α → β → Prop} (himp : ∀ a b, R a b → S a b)
    {x : Option α} {y : Option β} (h : Option.Rel R x y) : Option.Rel S x y := by
  cases h with
  | some h => exact .some (himp _ _ h)
  | none => exact .none

theorem optionRel_cases {α β : Type} {R : α → β → Prop} {x : Option α} {y : Option β}
    (h : Option.Rel R x y) : (x = none ∧ y = none) ∨ ∃ a b, x = some a ∧ y = some b ∧ R a b := by
  cases h with
  | some h => exact .inr ⟨_, _, rfl, rfl, h⟩
  | none => exact .inl ⟨rfl, rfl⟩

theorem optionRel_getD {α β : Type} {R : α → β → Prop} {x : Option α} {y : Option β}
    (h : Option.Rel R x y) {a : α} {b : β} (hab : R a b) : R (x.getD a) (y.getD b) := by
  cases h with
  | some h => exact h
  | none => exact hab

theorem optionRel_isSome {α β : Type} {R : α → β → Prop} {x : Option α} {y : Option β}
    (h : Option.Rel R x y) : x.isSome = y.isSome := by
  cases h <;> rfl

theorem optionRel_toList {α β : Type} {R : α → β → Prop} {x : Option α} {y : Option β}
    (h : Option.Rel R x y) : List.Forall₂ R x.toList y.toList := by
  cases h with
  | some h => exact .cons h .nil
  | none => exact .nil

theorem forall₂_getElem? {α β : Type} {R : α → β → Prop} {l : List α} {l' : List β}
    (h : List.Forall₂ R l l') (i : Nat) : Option.Rel R l[i]? l'[i]? := by
  induction h generalizing i with
  | nil => exact .none
  | cons hab _ ih =>
    cases i with
    | zero => exact .some hab
    | succ i => exact ih i

theorem forall₂_set {α β : Type} {R : α → β → Prop} {l : List α} {l' : List β}
    (h : List.Forall₂ R l l') (i : Nat) {a : α} {b : β} (hab : R a b) :
    List.Forall₂ R (l.set i a) (l'.set i b) := by
  induction h generalizing i with
  | nil => exact .nil
  | cons hcd hrest ih =>
    cases i with
    | zero => exact .cons hab hrest
    | succ i => exact .cons hcd (ih i)

theorem map_eq_of_forall₂ {α β γ : Type} {R : α → β → Prop} {f : α → γ} {g : β → γ}
    {l : List α} {l' : List β} (h : List.Forall₂ R l l') (hfg : ∀ a b, R a b → f a = g b) :
    l.map f = l'.map g := by
  induction h with
  | nil => rfl
  | cons hab _ ih => rw [List.map_cons, List.map_cons, hfg _ _ hab, ih]

/-- Tables with the same keys and related entries. -/
def Table.Rel {α β : Type} (R : α → β → Prop) (t : Std.TreeMap String α)
    (t' : Std.TreeMap String β) : Prop :=
  ∀ key : String, Option.Rel R t[key]? t'[key]?

namespace Table.Rel

variable {α β : Type} {R S : α → β → Prop} {t : Std.TreeMap String α} {t' : Std.TreeMap String β}

theorem mono (himp : ∀ a b, R a b → S a b) (h : Table.Rel R t t') : Table.Rel S t t' :=
  fun key => optionRel_imp himp (h key)

theorem empty : Table.Rel R ∅ ∅ := by
  intro key
  rw [Std.TreeMap.getElem?_emptyc, Std.TreeMap.getElem?_emptyc]
  exact .none

theorem insert (h : Table.Rel R t t') (key : String) {a : α} {b : β} (hab : R a b) :
    Table.Rel R (t.insert key a) (t'.insert key b) := by
  intro other
  rw [Std.TreeMap.getElem?_insert, Std.TreeMap.getElem?_insert]
  split
  · exact .some hab
  · exact h other

theorem toList [Inhabited β] (h : Table.Rel R t t') :
    List.Forall₂ (fun e e' => e.1 = e'.1 ∧ R e.2 e'.2) t.toList t'.toList := by
  let partner (key : String) : β := t'[key]?.getD default
  have hequiv : t'.Equiv (t.map fun key _ => partner key) := by
    refine .of_forall_constGet?_eq fun key => ?_
    change t'[key]? = (t.map fun key _ => partner key)[key]?
    rw [Std.TreeMap.getElem?_map]
    cases hkey : t[key]? with
    | none =>
      have := h key
      rw [hkey] at this
      cases ht' : t'[key]? with
      | none => rfl
      | some b =>
        rw [ht'] at this
        cases this
    | some a =>
      have := h key
      rw [hkey] at this
      cases ht' : t'[key]? with
      | none =>
        rw [ht'] at this
        cases this
      | some b => simp [partner, ht']
  rw [hequiv.toList_eq, Std.TreeMap.toList_map, List.forall₂_map_right_iff, List.forall₂_same]
  intro e he
  have hkey : t[e.1]? = some e.2 := Std.TreeMap.mem_toList_iff_getElem?_eq_some.mp he
  have hrel := h e.1
  rw [hkey] at hrel
  cases ht' : t'[e.1]? with
  | none =>
    rw [ht'] at hrel
    cases hrel
  | some b =>
    rw [ht'] at hrel
    cases hrel with
    | some hab => exact ⟨rfl, by simpa [partner, ht'] using hab⟩

theorem insertAll {l : List (String × α)} {l' : List (String × β)}
    (hl : List.Forall₂ (fun e e' => e.1 = e'.1 ∧ R e.2 e'.2) l l') (h : Table.Rel R t t') :
    Table.Rel R (l.foldl (fun t e => t.insert e.1 e.2) t)
      (l'.foldl (fun t e => t.insert e.1 e.2) t') := by
  induction hl generalizing t t' with
  | nil => exact h
  | cons he _ ih =>
    rw [List.foldl_cons, List.foldl_cons, he.1]
    exact ih (h.insert _ he.2)

end Table.Rel

/-! ### Containers and heaps -/

namespace Grid

/-- Arrays of the same shape with related cells. -/
structure Rel (σ : Renaming) (g g' : Grid) : Prop where
  sizes : g.sizes = g'.sizes
  cells : List.Forall₂ (Value.Rel σ) g.cells.toList g'.cells.toList

inductive SizeFault.Rel (σ : Renaming) : SizeFault → SizeFault → Prop where
  | missing : Rel σ .missing .missing
  | notNumber {v w : Value} (h : Value.Rel σ v w) : Rel σ (.notNumber v) (.notNumber w)
  | notSize {v w : Value} (h : Value.Rel σ v w) : Rel σ (.notSize v) (.notSize w)
  | tooLarge : Rel σ .tooLarge .tooLarge

inductive IndexFault.Rel (σ : Renaming) : IndexFault → IndexFault → Prop where
  | count (expected given : Nat) : Rel σ (.count expected given) (.count expected given)
  | notNumber {v w : Value} (h : Value.Rel σ v w) : Rel σ (.notNumber v) (.notNumber w)
  | outside {v w : Value} (h : Value.Rel σ v w) : Rel σ (.outside v) (.outside w)

variable {σ τ : Renaming} {g g' : Grid}

namespace Rel

theorem mono (hle : σ.Le τ) (h : Rel σ g g') : Rel τ g g' :=
  ⟨h.sizes, h.cells.imp fun _ _ => .mono hle⟩

theorem size_eq (h : Rel σ g g') : g.size = g'.size := by
  have := h.cells.length_eq
  rwa [Array.length_toList, Array.length_toList] at this

theorem get (h : Rel σ g g') (offset : Nat) : Value.Rel σ (g.get offset) (g'.get offset) := by
  unfold Grid.get
  rw [Array.getD_eq_getD_getElem?, Array.getD_eq_getD_getElem?, ← Array.getElem?_toList,
    ← Array.getElem?_toList]
  exact optionRel_getD (forall₂_getElem? h.cells offset) (.scalar rfl)

theorem set (h : Rel σ g g') (offset : Nat) {v w : Value} (hvw : Value.Rel σ v w) :
    Rel σ (g.set offset v) (g'.set offset w) := by
  refine ⟨h.sizes, ?_⟩
  unfold Grid.set
  rw [Array.toList_setIfInBounds, Array.toList_setIfInBounds]
  exact forall₂_set h.cells offset hvw

end Rel

theorem offsetFrom_nil (offset : Nat) (vs : List Value) : offsetFrom offset vs [] = .ok offset := by
  cases vs with
  | nil => rfl
  | cons v vs => cases v <;> rfl

theorem offsetFrom_rel {vs ws : List Value} (h : List.Forall₂ (Value.Rel σ) vs ws) (offset : Nat)
    (sizes : List Nat) : Except.Related (IndexFault.Rel σ) Eq (offsetFrom offset vs sizes)
      (offsetFrom offset ws sizes) := by
  induction h generalizing offset sizes with
  | nil => exact .ok rfl
  | @cons v w vs ws hvw hvs ih =>
    cases sizes with
    | nil =>
      rw [offsetFrom_nil, offsetFrom_nil]
      exact .ok rfl
    | cons size sizes =>
      cases hvw with
      | array hr => exact .error (.notNumber (.array hr))
      | map hr => exact .error (.notNumber (.map hr))
      | scalar hv =>
        cases v with
        | number x =>
          unfold offsetFrom
          split
          · split
            · exact ih _ _
            · exact .error (.outside (.scalar rfl))
          · exact .error (.outside (.scalar rfl))
        | array => cases hv
        | map => cases hv
        | _ => exact .error (.notNumber (.scalar rfl))

theorem offset_rel (h : Rel σ g g') {vs ws : List Value} (hvs : List.Forall₂ (Value.Rel σ) vs ws) :
    Except.Related (IndexFault.Rel σ) Eq (g.offset vs) (g'.offset ws) := by
  unfold offset
  rw [hvs.length_eq, h.sizes]
  split
  · exact .error (.count _ _)
  · exact offsetFrom_rel hvs 0 _

theorem readSizes_rel {vs ws : List Value} (h : List.Forall₂ (Value.Rel σ) vs ws) (total : Nat) :
    Except.Related (SizeFault.Rel σ) Eq (readSizes vs total) (readSizes ws total) := by
  induction h generalizing total with
  | nil => exact .ok rfl
  | @cons v w vs ws hvw hvs ih =>
    cases hvw with
    | array hr => exact .error (.notNumber (.array hr))
    | map hr => exact .error (.notNumber (.map hr))
    | scalar hv =>
      cases v with
      | number x =>
        unfold readSizes
        split
        · split
          · exact .error .tooLarge
          · exact (ih _).map fun _ _ h => by rw [h]
        · exact .error (.notSize (.scalar rfl))
      | array => cases hv
      | map => cases hv
      | _ => exact .error (.notNumber (.scalar rfl))

theorem ofSizes_rel {vs ws : List Value} (h : List.Forall₂ (Value.Rel σ) vs ws) :
    Except.Related (SizeFault.Rel σ) (Rel σ) (ofSizes vs) (ofSizes ws) := by
  have hempty : vs.isEmpty = ws.isEmpty := by cases h <;> rfl
  unfold ofSizes
  rw [hempty]
  split
  · exact .error .missing
  · refine (readSizes_rel h 1).map ?_
    rintro sizes _ rfl
    refine ⟨rfl, List.forall₂_same.mpr fun v hv => ?_⟩
    rw [Array.toList_replicate, List.mem_replicate] at hv
    rw [hv.2]
    exact .scalar rfl

end Grid

namespace Dict

def Rel (σ : Renaming) (d d' : Dict) : Prop :=
  Table.Rel (Value.Rel σ) d.entries d'.entries

namespace Rel

variable {σ τ : Renaming} {d d' : Dict}

theorem mono (hle : σ.Le τ) (h : Rel σ d d') : Rel τ d d' :=
  Table.Rel.mono (fun _ _ => .mono hle) h

theorem empty : Rel σ {} {} :=
  Table.Rel.empty

theorem get (h : Rel σ d d') (key : String) : Value.Rel σ (d.get key) (d'.get key) := by
  unfold Dict.get
  rw [Std.TreeMap.getD_eq_getD_getElem?, Std.TreeMap.getD_eq_getD_getElem?]
  exact optionRel_getD (h key) (.scalar rfl)

theorem set (h : Rel σ d d') (key : String) {v w : Value} (hvw : Value.Rel σ v w) :
    Rel σ (d.set key v) (d'.set key w) :=
  Table.Rel.insert h key hvw

theorem size_eq (h : Rel σ d d') : d.size = d'.size := by
  have := (Table.Rel.toList h).length_eq
  rwa [Std.TreeMap.length_toList, Std.TreeMap.length_toList] at this

end Rel

end Dict

inductive Slot.Rel (σ : Renaming) : Slot → Slot → Prop where
  | cell {r s : Ref} (h : σ.rel .array r s) (offset : Nat) : Rel σ (.cell r offset) (.cell s offset)
  | entry {r s : Ref} (h : σ.rel .map r s) (key : String) : Rel σ (.entry r key) (.entry s key)

theorem Slot.Rel.mono {σ τ : Renaming} (hle : σ.Le τ) {slot slot' : Slot}
    (h : slot.Rel σ slot') : slot.Rel τ slot' := by
  cases h with
  | cell h offset => exact .cell (hle _ _ _ h) offset
  | entry h key => exact .entry (hle _ _ _ h) key

namespace Heap

/-- The number of containers of a kind. -/
def count (h : Heap) : Kind → Nat
  | .array => h.grids.size
  | .map => h.dicts.size

/-- Heaps in which paired containers exist and hold paired values. -/
structure Rel (σ : Renaming) (h h' : Heap) : Prop where
  live : ∀ {k r s}, σ.rel k r s → r < h.count k ∧ s < h'.count k
  grid : ∀ {r s}, σ.rel .array r s → Grid.Rel σ (h.grid r) (h'.grid s)
  dict : ∀ {r s}, σ.rel .map r s → Dict.Rel σ (h.dict r) (h'.dict s)

namespace Rel

variable {σ : Renaming} {h h' : Heap} (hrel : Rel σ h h') {v w : Value}
include hrel

theorem displayWithin_eq {hidden hidden' : Option Ref}
    (hhidden : Option.Rel (σ.rel .array) hidden hidden') (levels : Nat) (hvw : Value.Rel σ v w) :
    h.displayWithin hidden levels v = h'.displayWithin hidden' levels w := by
  induction levels generalizing v w with
  | zero =>
    cases hvw with
    | scalar hv =>
      cases v with
      | array => cases hv
      | map => cases hv
      | _ => rfl
    | array => rfl
    | map => rfl
  | succ levels ih =>
    cases hvw with
    | scalar hv =>
      cases v with
      | array => cases hv
      | map => cases hv
      | _ => rfl
    | @array r s hrs =>
      have hiff : hidden = some r ↔ hidden' = some s := by
        cases hhidden with
        | none => exact ⟨nofun, nofun⟩
        | some hab =>
          rw [Option.some_inj, Option.some_inj]
          exact σ.one_to_one hab hrs
      have hcells := map_eq_of_forall₂ (hrel.grid hrs).cells fun _ _ => ih
      unfold displayWithin
      rw [hcells]
      simp only [hiff]
    | map hrs =>
      have hentries := Table.Rel.toList (hrel.dict hrs)
      unfold displayWithin
      dsimp only
      rw [Dict.toList, Dict.toList, map_eq_of_forall₂ hentries]
      rintro e e' ⟨hkey, hvw⟩
      rw [hkey, ih hvw]

theorem display_eq (hvw : Value.Rel σ v w) : h.display v = h'.display w :=
  hrel.displayWithin_eq .none _ hvw

theorem displayWriting_eq {r s : Ref} (hrs : σ.rel .array r s) (hvw : Value.Rel σ v w) :
    h.displayWriting r v = h'.displayWriting s w :=
  hrel.displayWithin_eq (.some hrs) _ hvw

theorem describe_eq (hvw : Value.Rel σ v w) : h.describe v = h'.describe w := by
  have hdisplay := hrel.display_eq hvw
  cases hvw with
  | scalar hv =>
    cases v with
    | text => rfl
    | array => cases hv
    | map => cases hv
    | _ => exact congrArg (_ ++ " " ++ ·) hdisplay
  | array => exact congrArg ("array" ++ " " ++ ·) hdisplay
  | map => exact congrArg ("map" ++ " " ++ ·) hdisplay

theorem toNumber_eq (hvw : Value.Rel σ v w) : h.toNumber v = h'.toNumber w := by
  unfold toNumber
  rw [hvw.toNumber?_eq, hrel.describe_eq hvw]

theorem toIndex_eq (hvw : Value.Rel σ v w) : h.toIndex v = h'.toIndex w := by
  unfold toIndex
  rw [hrel.toNumber_eq hvw, hrel.display_eq hvw]

theorem sizeError_eq {fault fault' : Grid.SizeFault} (hfault : fault.Rel σ fault') :
    h.sizeError fault = h'.sizeError fault' := by
  cases hfault with
  | missing => rfl
  | notNumber hvw => rw [sizeError, sizeError, hrel.display_eq hvw]
  | notSize hvw => rw [sizeError, sizeError, hrel.display_eq hvw]
  | tooLarge => rfl

omit hrel in
theorem indexError_eq {display display' : Value → String}
    (hdisplay : ∀ v w, Value.Rel σ v w → display v = display' w) {fault fault' : Grid.IndexFault}
    (hfault : fault.Rel σ fault') : indexError display fault = indexError display' fault' := by
  cases hfault with
  | count => rfl
  | notNumber hvw => rw [indexError, indexError, hdisplay _ _ hvw]
  | outside hvw => rw [indexError, indexError, hdisplay _ _ hvw]

omit hrel in
theorem mapKey_eq (missing : String) {vs ws : List Value} (h : List.Forall₂ (Value.Rel σ) vs ws) :
    mapKey missing vs = mapKey missing ws := by
  cases h with
  | nil => rfl
  | cons hvw hrest =>
    cases hrest with
    | nil =>
      unfold mapKey
      dsimp only
      rw [hvw.key?_eq, hvw.typeName_eq]
    | cons => rfl

theorem locate_rel (access : Access) (hvw : Value.Rel σ v w) {keys keys' : List Value}
    (hkeys : List.Forall₂ (Value.Rel σ) keys keys') :
    Except.Related Eq (Slot.Rel σ) (h.locate access v keys) (h'.locate access w keys') := by
  cases hvw with
  | scalar hv =>
    cases v with
    | array => cases hv
    | map => cases hv
    | _ => exact .error rfl
  | @array r s hrs =>
    have hdisplay : ∀ v w, Value.Rel σ v w →
        (if access = .writing then h.displayWriting r else h.display) v =
          (if access = .writing then h'.displayWriting s else h'.display) w := by
      intro v w hvw
      split
      · exact hrel.displayWriting_eq hrs hvw
      · exact hrel.display_eq hvw
    unfold locate
    dsimp only
    generalize hx : (h.grid r).offset keys = x
    generalize hy : (h'.grid s).offset keys' = y
    have hoffset := Grid.offset_rel (hrel.grid hrs) hkeys
    rw [hx, hy] at hoffset
    cases hoffset with
    | ok heq =>
      cases heq
      exact .ok (.cell hrs _)
    | error hfault => exact .error (indexError_eq hdisplay hfault)
  | map hrs =>
    unfold locate
    dsimp only
    rw [mapKey_eq _ hkeys]
    refine Except.Related.map (.of_eq rfl) ?_
    rintro key _ rfl
    exact .entry hrs key

theorem read_rel {slot slot' : Slot} (hslot : slot.Rel σ slot') :
    Value.Rel σ (h.read slot) (h'.read slot') := by
  cases hslot with
  | cell hrs offset => exact (hrel.grid hrs).get offset
  | entry hrs key => exact (hrel.dict hrs).get key

theorem getElement_rel (hvw : Value.Rel σ v w) {keys keys' : List Value}
    (hkeys : List.Forall₂ (Value.Rel σ) keys keys') :
    Except.Related Eq (Value.Rel σ) (h.getElement v keys) (h'.getElement w keys') :=
  (hrel.locate_rel .reading hvw hkeys).map fun _ _ => hrel.read_rel

/-! ### Operations -/

omit hrel in
theorem of_scalar {x y : Except Error Value} (hxy : x = y)
    (hx : ∀ u, x = .ok u → u.isContainer = false) : Except.Related Eq (Value.Rel σ) x y := by
  subst hxy
  cases x with
  | ok u => exact .ok (.scalar (hx u rfl))
  | error e => exact .error rfl

omit hrel in
theorem unary_rel (op : UnaryOp) (hvw : Value.Rel σ v w) :
    Except.Related Eq (Value.Rel σ) (op.apply v) (op.apply w) := by
  refine of_scalar ?_ fun u hu => ?_
  · cases hvw with
    | scalar => rfl
    | array => cases op <;> rfl
    | map => cases op <;> rfl
  · unfold UnaryOp.apply at hu
    split at hu <;> cases hu <;> rfl

variable {v' w' : Value}

omit hrel in
theorem compareWith_rel (texts : String → String → Bool) (numbers : Float → Float → Bool)
    (hvw : Value.Rel σ v w) (hvw' : Value.Rel σ v' w') :
    Except.Related Eq (Value.Rel σ) (compareWith texts numbers v v')
      (compareWith texts numbers w w') := by
  refine of_scalar ?_ fun u hu => ?_
  · cases hvw with
    | scalar hv =>
      cases hvw' with
      | scalar => rfl
      | array => cases v <;> rfl
      | map => cases v <;> rfl
    | array =>
      cases hvw' with
      | scalar => cases v' <;> rfl
      | array => rfl
      | map => rfl
    | map =>
      cases hvw' with
      | scalar => cases v' <;> rfl
      | array => rfl
      | map => rfl
  · unfold compareWith at hu
    split at hu
    · cases hu
      rfl
    · split at hu <;> cases hu
      rfl

theorem arithmetic_rel (f : Float → Float → Float) (hvw : Value.Rel σ v w)
    (hvw' : Value.Rel σ v' w') :
    Except.Related Eq (Value.Rel σ) (h.arithmetic f v v') (h'.arithmetic f w w') := by
  unfold arithmetic
  rw [hrel.toNumber_eq hvw, hrel.toNumber_eq hvw']
  refine Except.Related.bind (.of_eq rfl) ?_
  rintro x _ rfl
  refine Except.Related.bind (.of_eq rfl) ?_
  rintro y _ rfl
  exact .ok (.scalar rfl)

theorem division_rel (f : Float → Float → Float) (hvw : Value.Rel σ v w)
    (hvw' : Value.Rel σ v' w') :
    Except.Related Eq (Value.Rel σ) (h.division f v v') (h'.division f w w') := by
  unfold division
  rw [hrel.toNumber_eq hvw, hrel.toNumber_eq hvw']
  refine Except.Related.bind (.of_eq rfl) ?_
  rintro x _ rfl
  refine Except.Related.bind (.of_eq rfl) ?_
  rintro y _ rfl
  dsimp only
  split
  · exact .error rfl
  · exact .ok (.scalar rfl)

omit hrel in
theorem sum_eq (hv : ∀ s, v ≠ .text s) : h.sum v v' = match v' with
    | .text t => .ok (.text (h.display v ++ t))
    | v' => h.arithmetic (· + ·) v v' := by
  cases v with
  | text s => exact absurd rfl (hv s)
  | _ => cases v' <;> rfl

theorem sum_rel (hvw : Value.Rel σ v w) (hvw' : Value.Rel σ v' w') :
    Except.Related Eq (Value.Rel σ) (h.sum v v') (h'.sum w w') := by
  have harithmetic := hrel.arithmetic_rel (· + ·) hvw hvw'
  have hv := hrel.display_eq hvw
  have hv' := hrel.display_eq hvw'
  by_cases htext : ∃ s, v = .text s
  · obtain ⟨s, rfl⟩ := htext
    cases hvw
    unfold sum
    dsimp only
    rw [hv']
    exact .ok (.scalar rfl)
  · have hnot : ∀ s, v ≠ .text s := fun s hs => htext ⟨s, hs⟩
    have hnot' : ∀ s, w ≠ .text s := by
      intro s hs
      subst hs
      cases hvw
      exact hnot s rfl
    rw [sum_eq hnot, sum_eq hnot']
    cases hvw' with
    | scalar hc =>
      cases v' with
      | text t =>
        dsimp only
        rw [hv]
        exact .ok (.scalar rfl)
      | _ => exact harithmetic
    | array => exact harithmetic
    | map => exact harithmetic

theorem binary_rel (op : BinaryOp) (hvw : Value.Rel σ v w) (hvw' : Value.Rel σ v' w') :
    Except.Related Eq (Value.Rel σ) (op.apply h v v') (op.apply h' w w') := by
  cases op with
  | power => exact hrel.arithmetic_rel _ hvw hvw'
  | multiply => exact hrel.arithmetic_rel _ hvw hvw'
  | divide => exact hrel.division_rel _ hvw hvw'
  | divideInt => exact hrel.division_rel _ hvw hvw'
  | modulus => exact hrel.division_rel _ hvw hvw'
  | add => exact hrel.sum_rel hvw hvw'
  | subtract => exact hrel.arithmetic_rel _ hvw hvw'
  | equal =>
    unfold BinaryOp.apply
    rw [hvw.looselyEqual_eq hvw']
    exact .ok (.scalar rfl)
  | notEqual =>
    unfold BinaryOp.apply
    rw [hvw.looselyEqual_eq hvw']
    exact .ok (.scalar rfl)
  | less => exact compareWith_rel _ _ hvw hvw'
  | lessEqual => exact compareWith_rel _ _ hvw hvw'
  | greater => exact compareWith_rel _ _ hvw hvw'
  | greaterEqual => exact compareWith_rel _ _ hvw hvw'
  | and =>
    unfold BinaryOp.apply
    dsimp only
    rw [hvw.isTruthy_eq]
    split
    · exact .ok hvw'
    · exact .ok hvw
  | or =>
    unfold BinaryOp.apply
    dsimp only
    rw [hvw.isTruthy_eq]
    split
    · exact .ok hvw
    · exact .ok hvw'

end Rel

end Heap

/-! ### Variables and data -/

/-- Scopes with the same names for related values. -/
structure Scope.Rel (σ : Renaming) (s s' : Scope) : Prop where
  vars : Table.Rel (Value.Rel σ) s.vars s'.vars
  constants : Table.Rel (Value.Rel σ) s.constants s'.constants

namespace Scope.Rel

variable {σ τ : Renaming} {s s' : Scope} (h : Scope.Rel σ s s')
include h

theorem mono (hle : σ.Le τ) : Scope.Rel τ s s' :=
  ⟨h.vars.mono fun _ _ => .mono hle, h.constants.mono fun _ _ => .mono hle⟩

theorem clear : Scope.Rel σ s.clear s'.clear :=
  ⟨.empty, h.constants⟩

theorem define (name : String) {v w : Value} (hvw : Value.Rel σ v w) :
    Scope.Rel σ (s.define name v) (s'.define name w) :=
  ⟨h.vars, h.constants.insert _ hvw⟩

theorem store (name : String) {v w : Value} (hvw : Value.Rel σ v w) :
    Scope.Rel σ (s.store name v) (s'.store name w) :=
  ⟨h.vars.insert name hvw, h.constants⟩

theorem fetch (name : String) : Option.Rel (Value.Rel σ) (s.fetch name) (s'.fetch name) := by
  have hvars := h.vars name
  have hconstants := h.constants name
  unfold Scope.fetch
  revert hvars
  generalize s.vars[name]? = x
  generalize s'.vars[name]? = y
  intro hvars
  cases hvars with
  | some hvw => exact .some hvw
  | none => exact hconstants

theorem contains_eq (name : String) : s.contains name = s'.contains name :=
  optionRel_isSome (h.fetch name)

theorem toList : List.Forall₂ (fun e e' => e.1 = e'.1 ∧ Value.Rel σ e.2 e'.2) s.toList s'.toList := by
  unfold Scope.toList
  rw [Std.TreeMap.foldl_eq_foldl_toList, Std.TreeMap.foldl_eq_foldl_toList]
  exact (Table.Rel.insertAll h.vars.toList h.constants).toList

end Scope.Rel

/-- The same place in related queues. -/
structure DataQueue.Rel (σ : Renaming) (d d' : DataQueue) : Prop where
  values : List.Forall₂ (Value.Rel σ) d.values.toList d'.values.toList
  cursor : d.cursor = d'.cursor

namespace DataQueue.Rel

variable {σ τ : Renaming} {d d' : DataQueue} (h : DataQueue.Rel σ d d')

omit h in
theorem empty : DataQueue.Rel σ {} {} :=
  ⟨.nil, rfl⟩

include h

theorem mono (hle : σ.Le τ) : DataQueue.Rel τ d d' :=
  ⟨h.values.imp fun _ _ => .mono hle, h.cursor⟩

theorem rewind : DataQueue.Rel σ d.rewind d'.rewind :=
  ⟨h.values, rfl⟩

theorem push {v w : Value} (hvw : Value.Rel σ v w) : DataQueue.Rel σ (d.push v) (d'.push w) := by
  refine ⟨?_, h.cursor⟩
  unfold DataQueue.push
  rw [Array.toList_push, Array.toList_push]
  exact List.rel_append h.values (.cons hvw .nil)

theorem pushAll {vs ws : List Value} (hvs : List.Forall₂ (Value.Rel σ) vs ws) :
    DataQueue.Rel σ (d.pushAll vs) (d'.pushAll ws) := by
  induction hvs generalizing d d' with
  | nil => exact h
  | cons hvw _ ih => exact ih (h.push hvw)

theorem read : Except.Related Eq (fun r r' => Value.Rel σ r.1 r'.1 ∧ DataQueue.Rel σ r.2 r'.2)
    d.read d'.read := by
  have hvalue := forall₂_getElem? h.values d.cursor
  unfold DataQueue.read
  rw [← h.cursor]
  rw [Array.getElem?_toList, Array.getElem?_toList] at hvalue
  revert hvalue
  generalize d.values[d.cursor]? = x
  generalize d'.values[d.cursor]? = y
  intro hvalue
  cases hvalue with
  | some hvw => exact .ok ⟨hvw, h.values, rfl⟩
  | none => exact .error rfl

end DataQueue.Rel

end LineBasic
