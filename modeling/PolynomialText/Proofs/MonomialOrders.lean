import Mathlib.Data.List.Forall2
import PolynomialText.Proofs.PolyCanonical
import PolynomialText.TermOrder

/-!
# Term orders are monomial orders

Every term order compares vectors by a list of integer forms, the first form that tells two vectors
apart deciding: single exponents, their negatives, degrees of blocks or rows of weights. The forms
are additive, so the comparison does not change when a common factor is multiplied in, and they
determine the vector, so only equal vectors compare equal. `TermOrder.isMonomialOrder` collects
what follows for every kind, split and weight matrix, and says where the unit monomial stands.
-/

namespace PolynomialText

namespace Exponents

/-! ### Products that are not clamped -/

/-- Vectors of one length no two exponents of which sum past the largest exponent. -/
def Unclamped (a c : Exponents) : Prop :=
  List.Forall₂ (fun x y => x.toNat + y.toNat < UInt64.size) a c

/-- A product that is not clamped has the length of its factors. -/
theorem Unclamped.length_add {a c : Exponents} (h : a.Unclamped c) :
    (a.add c).length = a.length := by
  rw [add, List.length_zipWith, ← List.Forall₂.length_eq h, Nat.min_self]

theorem Unclamped.slice {a c : Exponents} (h : a.Unclamped c) (start stop : Nat) :
    (a.slice start stop).Unclamped (c.slice start stop) :=
  List.forall₂_take _ (List.forall₂_drop start h)

theorem Unclamped.reverse {a c : Exponents} (h : a.Unclamped c) :
    Unclamped a.reverse c.reverse :=
  List.forall₂_reverse_iff.2 h

/-- A block of a product is the product of the blocks. -/
theorem slice_add (a c : Exponents) (start stop : Nat) :
    (a.add c).slice start stop = (a.slice start stop).add (c.slice start stop) := by
  simp only [slice, add, List.drop_zipWith, List.take_zipWith]

theorem Unclamped.reverse_add {a c : Exponents} (h : a.Unclamped c) :
    (a.add c).reverse = add a.reverse c.reverse := by
  induction h with
  | nil => rfl
  | @cons x y a c _ htail ih =>
    have hlength : a.reverse.length = c.reverse.length := by
      rw [List.length_reverse, List.length_reverse, List.Forall₂.length_eq htail]
    calc (add (x :: a) (y :: c)).reverse = (add a c).reverse ++ [clampAdd x y] := List.reverse_cons
      _ = add a.reverse c.reverse ++ add [x] [y] := by rw [ih]; rfl
      _ = add (a.reverse ++ [x]) (c.reverse ++ [y]) := (List.zipWith_append hlength).symm
      _ = add (x :: a).reverse (y :: c).reverse := by rw [List.reverse_cons, List.reverse_cons]

/-- A block of the unit monomial is a unit monomial. -/
theorem slice_zero (nvars start stop : Nat) :
    (zero nvars).slice start stop = zero (min (stop - start) (nvars - start)) := by
  simp only [slice, zero, List.drop_replicate, List.take_replicate]

theorem reverse_zero (nvars : Nat) : (zero nvars).reverse = zero nvars :=
  List.reverse_replicate

theorem length_slice {e : Exponents} {start stop : Nat} (hstop : stop ≤ e.length) :
    (e.slice start stop).length = stop - start := by
  rw [slice, List.length_take, List.length_drop]
  omega

/-- A vector from a position on is the block up to a later position and the rest. -/
theorem drop_eq_slice_append (e : Exponents) {start stop : Nat} (h : start ≤ stop) :
    e.drop start = e.slice start stop ++ e.drop stop := by
  have hrest : e.drop stop = (e.drop start).drop (stop - start) := by
    rw [List.drop_drop]
    congr 1
    omega
  rw [hrest, slice, List.take_append_drop]

/-! ### Additive forms -/

/-- A form that is zero at the unit and takes products that are not clamped to sums. -/
structure Additive (f : Exponents → Int) : Prop where
  zero : ∀ nvars, f (.zero nvars) = 0
  add : ∀ {a c : Exponents}, a.Unclamped c → f (a.add c) = f a + f c

/-- The exponent at a position. -/
def coordinate (i : Nat) (e : Exponents) : Int := (e.getD i 0).toNat

theorem additive_coordinate (i : Nat) : Additive (coordinate i) where
  zero nvars := by
    have hget : (Exponents.zero nvars).getD i 0 = 0 := by
      rw [List.getD_eq_getElem?_getD, Exponents.zero, List.getElem?_replicate]
      split <;> rfl
    rw [coordinate, hget]
    rfl
  add h := by
    induction h generalizing i with
    | nil => rfl
    | cons hsum _ ih =>
      cases i with
      | zero =>
        simp only [coordinate, Exponents.add, List.zipWith_cons_cons, List.getD_cons_zero,
          toNat_clampAdd]
        omega
      | succ i => exact ih i

theorem additive_degree : Additive fun e => e.degree where
  zero nvars := by
    induction nvars with
    | zero => rfl
    | succ nvars ih =>
      have hcons : (Exponents.zero (nvars + 1)).degree = (Exponents.zero nvars).degree :=
        Nat.zero_add _
      rw [hcons, ih]
  add h := by
    induction h with
    | nil => rfl
    | cons hsum _ ih =>
      simp only [Exponents.add, List.zipWith_cons_cons, degree, toNat_clampAdd] at ih ⊢
      omega

theorem additive_dot (row : List UInt64) : Additive fun e => dot row e where
  zero nvars := by
    induction row generalizing nvars with
    | nil => rfl
    | cons w row ih =>
      cases nvars with
      | zero => rfl
      | succ nvars =>
        have hcons : dot (w :: row) (Exponents.zero (nvars + 1)) = dot row (Exponents.zero nvars) :=
          Nat.zero_add _
        rw [hcons, ih]
  add h := by
    induction h generalizing row with
    | nil => cases row <;> rfl
    | @cons x y a c hsum _ ih =>
      cases row with
      | nil => rfl
      | cons w row =>
        have hx : (clampAdd x y).toNat = x.toNat + y.toNat := by
          rw [toNat_clampAdd]
          omega
        have hrest := ih row
        simp only [Exponents.add, List.zipWith_cons_cons, dot, hx, Nat.mul_add] at hrest ⊢
        omega

theorem Additive.neg {f : Exponents → Int} (hf : Additive f) : Additive fun e => -f e where
  zero nvars := by rw [hf.zero, Int.neg_zero]
  add h := by rw [hf.add h, Int.neg_add]

theorem Additive.reverse {f : Exponents → Int} (hf : Additive f) :
    Additive (f ∘ List.reverse) where
  zero nvars := by rw [Function.comp_apply, reverse_zero, hf.zero]
  add h := by
    rw [Function.comp_apply, h.reverse_add, hf.add h.reverse]
    rfl

theorem Additive.slice {f : Exponents → Int} (hf : Additive f) (start stop : Nat) :
    Additive (f ∘ Exponents.slice start stop) where
  zero nvars := by rw [Function.comp_apply, slice_zero, hf.zero]
  add h := by
    rw [Function.comp_apply, slice_add, hf.add (h.slice start stop)]
    rfl

/-! ### Comparison by forms -/

theorem compare_natCast (m n : Nat) : compare (m : Int) (n : Int) = compare m n := by
  simp only [compare, compareOfLessAndEq]
  grind

/-- Comparison by one form after the other; the first difference decides. -/
def compareBy : List (Exponents → Int) → Exponents → Exponents → Ordering
  | [], _, _ => .eq
  | f :: forms, a, b => (compare (f a) (f b)).then (compareBy forms a b)

theorem transCmp_compareBy (forms : List (Exponents → Int)) : Std.TransCmp (compareBy forms) := by
  induction forms with
  | nil =>
    exact { eq_swap := rfl, isLE_trans := fun _ _ => rfl }
  | cons f forms ih =>
    have hcons : compareBy (f :: forms) = compareLex (compareOn f) (compareBy forms) := rfl
    rw [hcons]
    infer_instance

theorem compareBy_append (forms rest : List (Exponents → Int)) (a b : Exponents) :
    compareBy (forms ++ rest) a b = (compareBy forms a b).then (compareBy rest a b) := by
  induction forms with
  | nil => rfl
  | cons f forms ih => rw [List.cons_append, compareBy, compareBy, ih, Ordering.then_assoc]

/-- Forms along a map compare the images. -/
theorem compareBy_comp (forms : List (Exponents → Int)) (g : Exponents → Exponents)
    (a b : Exponents) : compareBy (forms.map (· ∘ g)) a b = compareBy forms (g a) (g b) := by
  induction forms with
  | nil => rfl
  | cons f forms ih => rw [List.map_cons, compareBy, compareBy, ih, Function.comp_apply,
      Function.comp_apply]

/-- The negatives of forms compare the other way round. -/
theorem compareBy_neg (forms : List (Exponents → Int)) (a b : Exponents) :
    compareBy (forms.map fun f e => -f e) a b = compareBy forms b a := by
  induction forms with
  | nil => rfl
  | cons f forms ih =>
    have hneg : compare (-f a) (-f b) = compare (f b) (f a) := by
      simp only [compare, compareOfLessAndEq]
      grind
    rw [List.map_cons, compareBy, compareBy, ih, hneg]

/-- A common factor does not change a comparison by additive forms. -/
theorem compareBy_add {forms : List (Exponents → Int)} (hforms : ∀ f ∈ forms, Additive f)
    {a b c : Exponents} (ha : a.Unclamped c) (hb : b.Unclamped c) :
    compareBy forms (a.add c) (b.add c) = compareBy forms a b := by
  induction forms with
  | nil => rfl
  | cons f forms ih =>
    obtain ⟨hf, hrest⟩ := List.forall_mem_cons.1 hforms
    have hhead : compare (f a + f c) (f b + f c) = compare (f a) (f b) := by
      simp only [compare, compareOfLessAndEq]
      grind
    rw [compareBy, compareBy, hf.add ha, hf.add hb, hhead, ih hrest]

/-- Forms none of which gets smaller do not put the second vector below the first. -/
theorem isLE_compareBy {forms : List (Exponents → Int)} {a b : Exponents}
    (h : ∀ f ∈ forms, f a ≤ f b) : (compareBy forms a b).isLE := by
  induction forms with
  | nil => rfl
  | cons f forms ih =>
    obtain ⟨hf, hrest⟩ := List.forall_mem_cons.1 h
    rw [compareBy, Ordering.isLE_then_iff_and]
    exact ⟨Std.isLE_compare.2 hf, .inr (ih hrest)⟩

/-- Additive forms that are nowhere negative put the unit first. -/
theorem isLE_compareBy_zero {forms : List (Exponents → Int)} {nvars : Nat} {e : Exponents}
    (hadditive : ∀ f ∈ forms, Additive f) (hnonneg : ∀ f ∈ forms, 0 ≤ f e) :
    (compareBy forms (.zero nvars) e).isLE := by
  apply isLE_compareBy
  intro f hf
  rw [(hadditive f hf).zero]
  exact hnonneg f hf

/-- The exponents from the first position on. -/
def coordinates (nvars : Nat) : List (Exponents → Int) := (List.range nvars).map coordinate

theorem coordinates_succ (nvars : Nat) :
    coordinates (nvars + 1) = coordinate 0 :: (coordinates nvars).map (· ∘ List.tail) := by
  have htail : ∀ i, coordinate (i + 1) = coordinate i ∘ List.tail := by
    intro i
    funext e
    cases e <;> rfl
  simp only [coordinates, List.range_succ_eq_map, List.map_cons, List.map_map]
  congr 1
  apply List.map_congr_left
  intro i _
  exact htail i

theorem compareBy_coordinates {nvars : Nat} {a b : Exponents} (ha : a.length = nvars)
    (hb : b.length = nvars) : compareBy (coordinates nvars) a b = a.cmp b := by
  induction nvars generalizing a b with
  | zero =>
    rw [List.length_eq_zero_iff.1 ha, List.length_eq_zero_iff.1 hb]
    rfl
  | succ nvars ih =>
    obtain ⟨x, a, rfl⟩ := List.exists_cons_of_length_eq_add_one ha
    obtain ⟨y, b, rfl⟩ := List.exists_cons_of_length_eq_add_one hb
    have hhead : compare (coordinate 0 (x :: a)) (coordinate 0 (y :: b)) = compare x y := by
      simp only [coordinate, List.getD_cons_zero, compare, compareOfLessAndEq,
        UInt64.lt_iff_toNat_lt, ← UInt64.toNat_inj]
      grind
    have hcmp : cmp (x :: a) (y :: b) = (compare x y).then (cmp a b) := by
      simp only [cmp, List.compareLex]
      cases compare x y <;> rfl
    rw [coordinates_succ, compareBy, compareBy_comp, hhead, hcmp]
    congr 1
    exact ih (Nat.succ.inj ha) (Nat.succ.inj hb)

/-- The exponents from the last position on. -/
def lastCoordinates (nvars : Nat) : List (Exponents → Int) :=
  (coordinates nvars).map (· ∘ List.reverse)

theorem compareBy_lastCoordinates {nvars : Nat} {a b : Exponents} (ha : a.length = nvars)
    (hb : b.length = nvars) : compareBy (lastCoordinates nvars) a b = a.invLex b := by
  have hra : a.reverse.length = nvars := by rw [List.length_reverse, ha]
  have hrb : b.reverse.length = nvars := by rw [List.length_reverse, hb]
  rw [lastCoordinates, compareBy_comp, compareBy_coordinates hra hrb, invLex]

theorem coordinates_forall {P : (Exponents → Int) → Prop} (h : ∀ i, P (coordinate i))
    (nvars : Nat) : ∀ f ∈ coordinates nvars, P f :=
  List.forall_mem_map.2 fun i _ => h i

theorem lastCoordinates_forall {P : (Exponents → Int) → Prop}
    (h : ∀ i, P (coordinate i ∘ List.reverse)) (nvars : Nat) : ∀ f ∈ lastCoordinates nvars, P f :=
  List.forall_mem_map.2 (coordinates_forall (fun i => h i) nvars)

theorem eq_of_cmp {a b : Exponents} (h : a.cmp b = .eq) : a = b :=
  Std.LawfulEqCmp.eq_of_compare h

theorem eq_of_invLex {a b : Exponents} (h : a.invLex b = .eq) : a = b :=
  List.reverse_injective (eq_of_cmp h)

/-- Only the unit monomial has degree zero. -/
theorem eq_zero_of_degree {e : Exponents} (h : e.degree = 0) : e = zero e.length := by
  induction e with
  | nil => rfl
  | cons x e ih =>
    rw [degree] at h
    have hx : x = 0 := UInt64.toNat.inj (by rw [UInt64.toNat_zero]; omega)
    have he : e = zero e.length := ih (by omega)
    calc x :: e = 0 :: zero e.length := by rw [hx, ← he]
      _ = zero (x :: e).length := rfl

end Exponents

/-! ### The forms of an order -/

/-- The forms by which a kind compares vectors of one length. -/
def OrderKind.forms (kind : OrderKind) (nvars : Nat) : List (Exponents → Int) :=
  match kind with
  | lex => Exponents.coordinates nvars
  | invLex | weighted => Exponents.lastCoordinates nvars
  | grLex => (fun e => e.degree) :: Exponents.coordinates nvars
  | iGrLex => (fun e => e.degree) :: Exponents.lastCoordinates nvars
  | revILex => (Exponents.lastCoordinates nvars).map fun f e => -f e
  | revITDG => (fun e => e.degree) :: (Exponents.lastCoordinates nvars).map fun f e => -f e

namespace OrderKind

open Exponents

/-- The forms of a kind decide its comparison. -/
theorem compare_eq_compareBy (kind : OrderKind) {nvars : Nat} {a b : Exponents}
    (ha : a.length = nvars) (hb : b.length = nvars) :
    kind.compare a b = compareBy (kind.forms nvars) a b := by
  cases kind <;>
    simp only [OrderKind.compare, forms, compareBy, compare_natCast, compareBy_neg,
      compareBy_coordinates ha hb, compareBy_lastCoordinates ha hb, compareBy_lastCoordinates hb ha]

theorem additive_of_mem_forms (kind : OrderKind) (nvars : Nat) :
    ∀ f ∈ kind.forms nvars, Additive f := by
  have hfirst := coordinates_forall additive_coordinate nvars
  have hlast := lastCoordinates_forall (fun i => (additive_coordinate i).reverse) nvars
  have hneg : ∀ f ∈ (lastCoordinates nvars).map fun f e => -f e, Additive f :=
    List.forall_mem_map.2 fun f hf => (hlast f hf).neg
  cases kind with
  | lex => exact hfirst
  | invLex => exact hlast
  | weighted => exact hlast
  | grLex => exact List.forall_mem_cons.2 ⟨additive_degree, hfirst⟩
  | iGrLex => exact List.forall_mem_cons.2 ⟨additive_degree, hlast⟩
  | revILex => exact hneg
  | revITDG => exact List.forall_mem_cons.2 ⟨additive_degree, hneg⟩

/-- Only equal vectors compare equal. -/
theorem eq_of_compare (kind : OrderKind) {a b : Exponents} (h : kind.compare a b = .eq) :
    a = b := by
  cases kind with
  | lex => exact eq_of_cmp h
  | invLex => exact eq_of_invLex h
  | weighted => exact eq_of_invLex h
  | grLex => exact eq_of_cmp (Ordering.then_eq_eq.1 h).2
  | iGrLex => exact eq_of_invLex (Ordering.then_eq_eq.1 h).2
  | revILex => exact (eq_of_invLex h).symm
  | revITDG => exact (eq_of_invLex (Ordering.then_eq_eq.1 h).2).symm

/-- By degree first, the unit monomial is smallest, whatever decides among equal degrees. -/
theorem isLE_compareBy_degree (forms : List (Exponents → Int)) (e : Exponents) :
    (compareBy ((fun e => e.degree) :: forms) (.zero e.length) e).isLE := by
  have hzero : ((Exponents.zero e.length).degree : Int) = 0 := additive_degree.zero e.length
  rw [compareBy, Ordering.isLE_then_iff_and, hzero]
  constructor
  · exact Std.isLE_compare.2 (Int.natCast_nonneg _)
  · by_cases hdegree : e.degree = 0
    · right
      rw [← eq_zero_of_degree hdegree]
      exact isLE_compareBy fun f _ => Int.le_refl _
    · left
      exact Int.compare_eq_lt.2 (by omega)

/-- The unit monomial is smallest unless smaller exponents win. -/
theorem isLE_compare_zero {kind : OrderKind} (h : kind ≠ .revILex) (e : Exponents) :
    (kind.compare (Exponents.zero e.length) e).isLE := by
  have hlength : (Exponents.zero e.length).length = e.length := List.length_replicate
  have hlast : (compareBy (lastCoordinates e.length) (.zero e.length) e).isLE :=
    isLE_compareBy_zero (lastCoordinates_forall (fun i => (additive_coordinate i).reverse) _)
      (lastCoordinates_forall (fun i => Int.natCast_nonneg _) _)
  rw [kind.compare_eq_compareBy hlength rfl]
  cases kind with
  | lex =>
    exact isLE_compareBy_zero (coordinates_forall additive_coordinate _)
      (coordinates_forall (fun i => Int.natCast_nonneg _) _)
  | invLex => exact hlast
  | weighted => exact hlast
  | grLex => exact isLE_compareBy_degree _ e
  | iGrLex => exact isLE_compareBy_degree _ e
  | revILex => exact absurd rfl h
  | revITDG => exact isLE_compareBy_degree _ e

/-- Where smaller exponents win, the unit monomial is largest. -/
theorem isLE_revILex_compare_zero (e : Exponents) :
    (OrderKind.revILex.compare e (Exponents.zero e.length)).isLE :=
  isLE_compare_zero (show OrderKind.invLex ≠ .revILex by decide) e

end OrderKind

namespace TermOrder

open Exponents

/-- The forms of the blocks that end at the given points, from a position on. -/
def blockForms (kind : OrderKind) (nvars : Nat) : Nat → List Nat → List (Exponents → Int)
  | _, [] => []
  | start, point :: rest =>
    let stop := min point nvars
    if stop ≤ start then blockForms kind nvars start rest
    else (kind.forms (stop - start)).map (· ∘ Exponents.slice start stop) ++
      blockForms kind nvars stop rest

/-- The forms by which an order compares vectors of one length. -/
def forms (order : TermOrder) (nvars : Nat) : List (Exponents → Int) :=
  match order.weights with
  | some rows => (rows.map fun row e => (dot row e : Int)) ++ lastCoordinates nvars
  | none => blockForms order.kind nvars 0 (order.split.points ++ [nvars])

/-- The vectors of one length whose weights fit in 128 bits. -/
structure Measures (order : TermOrder) (nvars : Nat) (e : Exponents) : Prop where
  length : e.length = nvars
  dot_lt : ∀ rows, order.weights = some rows →
    ∀ row ∈ rows, dot row e < UInt64.size * UInt64.size

theorem Measures.weight_eq_dot {order : TermOrder} {nvars : Nat} {e : Exponents}
    (h : order.Measures nvars e) {rows : List (List UInt64)} (hrows : order.weights = some rows)
    (row : List UInt64) (hrow : row ∈ rows) : weight row e = dot row e :=
  Nat.mod_eq_of_lt (h.dot_lt rows hrows row hrow)

theorem compareBlocks_eq_compareBy (kind : OrderKind) {nvars : Nat} {a b : Exponents}
    (ha : a.length = nvars) (hb : b.length = nvars) (start : Nat) (points : List Nat) :
    compareBlocks kind a b start points = compareBy (blockForms kind nvars start points) a b := by
  induction points generalizing start with
  | nil => rfl
  | cons point rest ih =>
    have hstop : min point nvars ≤ nvars := Nat.min_le_right _ _
    simp only [compareBlocks, blockForms, ha]
    split
    · exact ih start
    · rw [compareBy_append, compareBy_comp, ← ih,
        kind.compare_eq_compareBy (length_slice (by omega)) (length_slice (by omega))]

/-- Any measure that agrees with the weights on two vectors compares them as the weights do. -/
theorem compareWeights_eq_compareBy {nvars : Nat} {a b : Exponents} (ha : a.length = nvars)
    (hb : b.length = nvars) (rows : List (List UInt64)) {measure : List UInt64 → Exponents → Nat}
    (hma : ∀ row ∈ rows, weight row a = measure row a)
    (hmb : ∀ row ∈ rows, weight row b = measure row b) :
    compareWeights a b rows =
      compareBy ((rows.map fun row e => (measure row e : Int)) ++ lastCoordinates nvars) a b := by
  induction rows with
  | nil => exact (compareBy_lastCoordinates ha hb).symm
  | cons row rows ih =>
    obtain ⟨hrowa, hma⟩ := List.forall_mem_cons.1 hma
    obtain ⟨hrowb, hmb⟩ := List.forall_mem_cons.1 hmb
    rw [compareWeights, ih hma hmb, hrowa, hrowb, ← compare_natCast]
    rfl

/-- The forms of an order decide its comparison. -/
theorem compare_eq_compareBy {order : TermOrder} {nvars : Nat} {a b : Exponents}
    (ha : order.Measures nvars a) (hb : order.Measures nvars b) :
    order.compare a b = compareBy (order.forms nvars) a b := by
  cases hweights : order.weights with
  | some rows =>
    simp only [compare, forms, hweights]
    exact compareWeights_eq_compareBy ha.length hb.length rows (ha.weight_eq_dot hweights)
      (hb.weight_eq_dot hweights)
  | none =>
    simp only [compare, forms, hweights, ha.length]
    exact compareBlocks_eq_compareBy order.kind ha.length hb.length 0 _

theorem additive_of_mem_blockForms (kind : OrderKind) (nvars start : Nat) (points : List Nat) :
    ∀ f ∈ blockForms kind nvars start points, Additive f := by
  induction points generalizing start with
  | nil => exact fun f hf => nomatch hf
  | cons point rest ih =>
    simp only [blockForms]
    split
    · exact ih start
    · rw [List.forall_mem_append]
      constructor
      · exact List.forall_mem_map.2 fun f hf =>
          (kind.additive_of_mem_forms _ f hf).slice start _
      · exact ih _

theorem additive_of_mem_forms (order : TermOrder) (nvars : Nat) :
    ∀ f ∈ order.forms nvars, Additive f := by
  unfold forms
  split
  · rw [List.forall_mem_append]
    constructor
    · exact List.forall_mem_map.2 fun row _ => additive_dot row
    · exact lastCoordinates_forall (fun i => (additive_coordinate i).reverse) nvars
  · exact additive_of_mem_blockForms order.kind nvars 0 _

/-- Vectors whose blocks compare equal up to the last position are equal from the first block on. -/
theorem drop_eq_of_compareBlocks {kind : OrderKind} {a b : Exponents} (hlength : a.length = b.length)
    {start : Nat} {points : List Nat}
    (h : compareBlocks kind a b start (points ++ [a.length]) = .eq) :
    a.drop start = b.drop start := by
  induction points generalizing start with
  | nil =>
    rw [List.nil_append, compareBlocks, Nat.min_self] at h
    split at h
    · rename_i hle
      rw [List.drop_eq_nil_of_le hle, List.drop_eq_nil_of_le (hlength ▸ hle)]
    · rename_i hlt
      have hblock := kind.eq_of_compare (Ordering.then_eq_eq.1 h).1
      rw [drop_eq_slice_append a (Nat.le_of_not_le hlt),
        drop_eq_slice_append b (Nat.le_of_not_le hlt), hblock, List.drop_length, hlength,
        List.drop_length]
  | cons point rest ih =>
    rw [List.cons_append, compareBlocks] at h
    split at h
    · exact ih h
    · rename_i hlt
      obtain ⟨hblock, hrest⟩ := Ordering.then_eq_eq.1 h
      rw [drop_eq_slice_append a (Nat.le_of_not_le hlt),
        drop_eq_slice_append b (Nat.le_of_not_le hlt), kind.eq_of_compare hblock, ih hrest]

theorem eq_of_compareWeights {a b : Exponents} {rows : List (List UInt64)}
    (h : compareWeights a b rows = .eq) : a = b := by
  induction rows with
  | nil => exact eq_of_invLex h
  | cons row rows ih => exact ih (Ordering.then_eq_eq.1 h).2

/-- Only equal vectors compare equal. -/
theorem eq_of_compare {order : TermOrder} {a b : Exponents} (hlength : a.length = b.length)
    (h : order.compare a b = .eq) : a = b := by
  unfold compare at h
  split at h
  · exact eq_of_compareWeights h
  · exact drop_eq_of_compareBlocks hlength h

/-- Vectors that compare one way block by block compare that way. -/
theorem isLE_compareBlocks {kind : OrderKind} {a b : Exponents}
    (h : ∀ start stop, stop ≤ a.length →
      (kind.compare (a.slice start stop) (b.slice start stop)).isLE)
    (start : Nat) (points : List Nat) : (compareBlocks kind a b start points).isLE := by
  induction points generalizing start with
  | nil => rfl
  | cons point rest ih =>
    rw [compareBlocks]
    split
    · exact ih start
    · rw [Ordering.isLE_then_iff_and]
      exact ⟨h start _ (Nat.min_le_right _ _), .inr (ih _)⟩

/-- A block of the unit monomial has the length of the same block of another vector. -/
theorem slice_zero_length (e : Exponents) {start stop : Nat} (hstop : stop ≤ e.length) :
    (Exponents.zero e.length).slice start stop = .zero (e.slice start stop).length := by
  rw [slice_zero, length_slice hstop]
  congr 1
  omega

theorem isLE_compareWeights_zero (rows : List (List UInt64)) (e : Exponents) :
    (compareWeights (.zero e.length) e rows).isLE := by
  induction rows with
  | nil => exact OrderKind.isLE_compare_zero (show OrderKind.invLex ≠ .revILex by decide) e
  | cons row rows ih =>
    have hzero : dot row (.zero e.length) = 0 := Int.ofNat.inj ((additive_dot row).zero e.length)
    rw [compareWeights, Ordering.isLE_then_iff_and, weight, hzero, Nat.zero_mod]
    exact ⟨Std.isLE_compare.2 (Nat.zero_le _), .inr ih⟩

/-- The unit monomial is smallest where weights decide and where larger exponents win. -/
theorem isLE_compare_zero {order : TermOrder} (h : order.kind = .revILex → order.weights ≠ none)
    (e : Exponents) : (order.compare (.zero e.length) e).isLE := by
  unfold compare
  split
  · exact isLE_compareWeights_zero _ e
  · rename_i hweights
    apply isLE_compareBlocks
    intro start stop hstop
    rw [slice_zero_length e (by simpa [Exponents.zero] using hstop)]
    exact OrderKind.isLE_compare_zero (fun hkind => h hkind hweights) _

/-- The unit monomial is largest where no weights decide and smaller exponents win. -/
theorem isLE_compare_zero_of_revILex {order : TermOrder} (hkind : order.kind = .revILex)
    (hweights : order.weights = none) (e : Exponents) :
    (order.compare e (.zero e.length)).isLE := by
  simp only [compare, hweights, hkind]
  apply isLE_compareBlocks
  intro start stop hstop
  rw [slice_zero_length e hstop]
  exact OrderKind.isLE_revILex_compare_zero _

end TermOrder

/-- A comparison that is a strict total order of a set of vectors and is kept by every common
factor that clamps no exponent and does not lead out of the set. -/
structure Exponents.IsMonomialOrder (D : Exponents → Prop)
    (compare : Exponents → Exponents → Ordering) : Prop where
  swap : ∀ {a b : Exponents}, D a → D b → compare b a = (compare a b).swap
  trans : ∀ {a b c : Exponents}, D a → D b → D c →
    compare a b = .lt → compare b c = .lt → compare a c = .lt
  eq_iff : ∀ {a b : Exponents}, D a → D b → (compare a b = .eq ↔ a = b)
  add : ∀ {a b c : Exponents}, D (a.add c) → D (b.add c) → a.Unclamped c → b.Unclamped c →
    compare (a.add c) (b.add c) = compare a b

namespace TermOrder

open Exponents

/-- Weights of a factor fit where those of the product do. -/
theorem Measures.of_add {order : TermOrder} {nvars : Nat} {a c : Exponents}
    (h : order.Measures nvars (a.add c)) (hac : a.Unclamped c) : order.Measures nvars a where
  length := by rw [← h.length, hac.length_add]
  dot_lt rows hrows row hrow := by
    have hsum : (dot row (a.add c) : Int) = dot row a + dot row c := (additive_dot row).add hac
    have hlt := h.dot_lt rows hrows row hrow
    omega

theorem measures_zero (order : TermOrder) (nvars : Nat) : order.Measures nvars (.zero nvars) where
  length := List.length_replicate
  dot_lt rows _ row _ := by
    have hzero : dot row (.zero nvars) = 0 := Int.ofNat.inj ((additive_dot row).zero nvars)
    rw [hzero]
    decide

/-- Comparison by additive forms that determine the vector is a monomial order. -/
theorem isMonomialOrder_measures (order : TermOrder) (nvars : Nat) :
    IsMonomialOrder (order.Measures nvars) order.compare := by
  have htrans := transCmp_compareBy (order.forms nvars)
  constructor
  · intro a b ha hb
    rw [compare_eq_compareBy hb ha, compare_eq_compareBy ha hb]
    exact Std.OrientedCmp.eq_swap
  · intro a b c ha hb hc hab hbc
    rw [compare_eq_compareBy ha hb] at hab
    rw [compare_eq_compareBy hb hc] at hbc
    rw [compare_eq_compareBy ha hc]
    exact Std.TransCmp.lt_trans hab hbc
  · intro a b ha hb
    constructor
    · exact eq_of_compare (ha.length.trans hb.length.symm)
    · rintro rfl
      rw [compare_eq_compareBy ha ha]
      exact Std.ReflCmp.compare_self
  · intro a b c hac hbc ha hb
    rw [compare_eq_compareBy hac hbc, compare_eq_compareBy (hac.of_add ha) (hbc.of_add hb)]
    exact compareBy_add (order.additive_of_mem_forms nvars) ha hb

/-- Every term order, whether or not it fits the number of variables, is a monomial order on the
vectors whose weights fit in 128 bits. The unit monomial is below all others, but above them all
where smaller exponents win and no weights decide. -/
theorem isMonomialOrder (order : TermOrder) (nvars : Nat) :
    IsMonomialOrder (order.Measures nvars) order.compare ∧
    (order.kind ≠ .revILex ∨ order.weights ≠ none →
      ∀ e, order.Measures nvars e → e ≠ .zero nvars → order.compare (.zero nvars) e = .lt) ∧
    (order.kind = .revILex → order.weights = none →
      ∀ e, order.Measures nvars e → e ≠ .zero nvars → order.compare (.zero nvars) e = .gt) := by
  have hmonomial := order.isMonomialOrder_measures nvars
  have hzero := order.measures_zero nvars
  refine ⟨hmonomial, ?_, ?_⟩
  · intro h e he hne
    have hle := isLE_compare_zero (fun hkind => h.resolve_left (absurd hkind)) e
    rw [he.length] at hle
    have hcompare : order.compare (.zero nvars) e ≠ .eq :=
      fun heq => hne ((hmonomial.eq_iff hzero he).1 heq).symm
    exact (Ordering.isLE_iff_eq_lt_or_eq_eq.1 hle).resolve_right hcompare
  · intro hkind hweights e he hne
    have hle := isLE_compare_zero_of_revILex hkind hweights e
    rw [he.length] at hle
    have hcompare : order.compare e (.zero nvars) ≠ .eq :=
      fun heq => hne ((hmonomial.eq_iff he hzero).1 heq)
    have hlt := (Ordering.isLE_iff_eq_lt_or_eq_eq.1 hle).resolve_right hcompare
    rw [hmonomial.swap he hzero, hlt]
    rfl

/-- In a block order, a common factor that reaches the largest exponent changes nothing and the unit
is smallest. Weights keep the unit smallest where smaller exponents would win; alone, that kind puts
it on top. -/
theorem blocks_and_weights_compare :
    (let order : TermOrder := ⟨.revITDG, none, .pair 3 1⟩
     order.Measures 4 (add [2, 1, 3, 0] [maxExponent - 2, 5, 0, 7]) ∧
     order.Measures 4 (add [2, 2, 2, 9] [maxExponent - 2, 5, 0, 7]) ∧
     order.compare (add [2, 1, 3, 0] [maxExponent - 2, 5, 0, 7])
       (add [2, 2, 2, 9] [maxExponent - 2, 5, 0, 7]) = order.compare [2, 1, 3, 0] [2, 2, 2, 9] ∧
     order.compare [2, 1, 3, 0] [2, 2, 2, 9] = .lt ∧
     order.compare (.zero 4) [2, 1, 3, 0] = .lt) ∧
    (let order : TermOrder := ⟨.revILex, some [[1, maxExponent]], .single 1⟩
     order.Measures 2 [0, maxExponent] ∧ order.compare (.zero 2) [0, maxExponent] = .lt) ∧
    (let order : TermOrder := ⟨.revILex, none, .single 1⟩
     order.Measures 2 [0, 1] ∧ order.compare (.zero 2) [0, 1] = .gt) := by
  have hmeasures : ∀ {kind : OrderKind} {split : SplitIndex} {n : Nat} {e : Exponents},
      e.length = n → Measures ⟨kind, none, split⟩ n e :=
    fun hlength => ⟨hlength, fun rows hrows => nomatch hrows⟩
  have hweighted : Measures ⟨.revILex, some [[1, maxExponent]], .single 1⟩ 2 [0, maxExponent] := by
    refine ⟨rfl, ?_⟩
    rintro rows hrows row hrow
    obtain rfl := Option.some.inj hrows
    obtain rfl := List.mem_singleton.1 hrow
    decide
  have hfirst : Unclamped [2, 1, 3, 0] [maxExponent - 2, 5, 0, 7] := by
    unfold Unclamped
    decide
  have hsecond : Unclamped [2, 2, 2, 9] [maxExponent - 2, 5, 0, 7] := by
    unfold Unclamped
    decide
  obtain ⟨hblock, hleast, -⟩ := isMonomialOrder ⟨.revITDG, none, .pair 3 1⟩ 4
  refine ⟨⟨hmeasures rfl, hmeasures rfl, ?_, by decide, ?_⟩, ⟨hweighted, ?_⟩,
    hmeasures rfl, ?_⟩
  · exact hblock.add (hmeasures rfl) (hmeasures rfl) hfirst hsecond
  · exact hleast (.inl (by decide)) _ (hmeasures rfl) (by decide)
  · exact (isMonomialOrder _ 2).2.1 (.inr (by decide)) _ hweighted (by decide)
  · exact (isMonomialOrder _ 2).2.2 rfl rfl _ (hmeasures rfl) (by decide)

end TermOrder

end PolynomialText
