import PolynomialText.Proofs.PolyCanonical
import Mathlib.Algebra.Ring.MinimalAxioms

/-!
# The laws of a ring on canonical elements

An arithmetic is plain data, and its laws need only hold for canonical elements: a residue that is
not reduced is no neutral factor's fixed point. `Arithmetic.RingLaws` states the axioms of an
associative ring with a unit on the elements of a set. The set is then a ring in the usual sense,
`RingLaws.Carrier`, from which every other identity is taken.
-/

namespace PolynomialText

variable {α : Type}

/-- The axioms of an associative ring with a unit, on the elements of a set. -/
structure Arithmetic.RingLaws (A : Arithmetic α) (C : α → Prop) : Prop where
  zero_mem : C A.zero
  one_mem : C A.one
  add_mem : ∀ {a b : α}, C a → C b → C (A.add a b)
  mul_mem : ∀ {a b : α}, C a → C b → C (A.mul a b)
  neg_mem : ∀ {a : α}, C a → C (A.neg a)
  add_assoc : ∀ {a b c : α}, C a → C b → C c → A.add (A.add a b) c = A.add a (A.add b c)
  add_comm : ∀ {a b : α}, C a → C b → A.add a b = A.add b a
  zero_add : ∀ {a : α}, C a → A.add A.zero a = a
  neg_add : ∀ {a : α}, C a → A.add (A.neg a) a = A.zero
  mul_assoc : ∀ {a b c : α}, C a → C b → C c → A.mul (A.mul a b) c = A.mul a (A.mul b c)
  one_mul : ∀ {a : α}, C a → A.mul A.one a = a
  mul_one : ∀ {a : α}, C a → A.mul a A.one = a
  mul_add : ∀ {a b c : α}, C a → C b → C c →
    A.mul a (A.add b c) = A.add (A.mul a b) (A.mul a c)
  add_mul : ∀ {a b c : α}, C a → C b → C c →
    A.mul (A.add a b) c = A.add (A.mul a c) (A.mul b c)

/-- Products of canonical elements do not depend on the order of the factors. -/
def Arithmetic.Commutes (A : Arithmetic α) (C : α → Prop) : Prop :=
  ∀ {a b : α}, C a → C b → A.mul a b = A.mul b a

/-- A product of canonical elements is zero only if a factor is. -/
def Arithmetic.HasNoZeroDivisors (A : Arithmetic α) (C : α → Prop) : Prop :=
  ∀ {a b : α}, C a → C b → A.mul a b = A.zero → a = A.zero ∨ b = A.zero

namespace Arithmetic.RingLaws

variable {A : Arithmetic α} {C : α → Prop} (h : A.RingLaws C)

/-- The canonical elements, as a type of their own. -/
@[ext]
structure Carrier (_ : A.RingLaws C) where
  val : α
  mem : C val

/-- A canonical element. -/
def of {a : α} (ha : C a) : h.Carrier := ⟨a, ha⟩

instance : Add h.Carrier := ⟨fun a b => ⟨A.add a.val b.val, h.add_mem a.mem b.mem⟩⟩

instance : Mul h.Carrier := ⟨fun a b => ⟨A.mul a.val b.val, h.mul_mem a.mem b.mem⟩⟩

instance : Neg h.Carrier := ⟨fun a => ⟨A.neg a.val, h.neg_mem a.mem⟩⟩

instance : Zero h.Carrier := ⟨⟨A.zero, h.zero_mem⟩⟩

instance : One h.Carrier := ⟨⟨A.one, h.one_mem⟩⟩

/-- The canonical elements form a ring. -/
instance : Ring h.Carrier :=
  Ring.ofMinimalAxioms
    (fun a b c => Carrier.ext (h.add_assoc a.mem b.mem c.mem))
    (fun a => Carrier.ext (h.zero_add a.mem))
    (fun a => Carrier.ext (h.neg_add a.mem))
    (fun a b c => Carrier.ext (h.mul_assoc a.mem b.mem c.mem))
    (fun a => Carrier.ext (h.one_mul a.mem))
    (fun a => Carrier.ext (h.mul_one a.mem))
    (fun a b c => Carrier.ext (h.mul_add a.mem b.mem c.mem))
    (fun a b c => Carrier.ext (h.add_mul a.mem b.mem c.mem))

theorem of_add {a b : α} (ha : C a) (hb : C b) :
    h.of (h.add_mem ha hb) = h.of ha + h.of hb := rfl

theorem of_neg {a : α} (ha : C a) : h.of (h.neg_mem ha) = -h.of ha := rfl

/-- The only canonical element that is the zero of the ring is zero. -/
theorem of_eq_zero_iff {a : α} (ha : C a) : h.of ha = 0 ↔ a = A.zero :=
  Carrier.ext_iff

include h

/-- The negative of the negative. -/
theorem neg_neg {a : α} (ha : C a) : A.neg (A.neg a) = a :=
  congrArg Carrier.val (InvolutiveNeg.neg_neg (h.of ha))

/-- A minus sign of the left factor belongs to the product. -/
theorem neg_mul {a b : α} (ha : C a) (hb : C b) : A.mul (A.neg a) b = A.neg (A.mul a b) :=
  congrArg Carrier.val (HasDistribNeg.neg_mul (h.of ha) (h.of hb))

/-- A minus sign of the right factor belongs to the product. -/
theorem mul_neg {a b : α} (ha : C a) (hb : C b) : A.mul a (A.neg b) = A.neg (A.mul a b) :=
  congrArg Carrier.val (HasDistribNeg.mul_neg (h.of ha) (h.of hb))

/-- The canonical elements of a ring are closed under its operations. -/
theorem closed : A.Closed C where
  zero := h.zero_mem
  one := h.one_mem
  add := h.add_mem
  mul := h.mul_mem
  neg := h.neg_mem
  neg_ne_zero ha hne hneg := by
    apply hne
    have hzero : h.of (h.neg_mem ha) = 0 := (h.of_eq_zero_iff (h.neg_mem ha)).2 hneg
    rw [h.of_neg ha, neg_eq_zero, of_eq_zero_iff] at hzero
    exact hzero

end Arithmetic.RingLaws

/-- Canonical elements stand for elements of a ring, each for one of its own, and the operations
compute in that ring. -/
structure Arithmetic.Represents {S : Type*} [Ring S] (A : Arithmetic α) (C : α → Prop) (f : α → S) :
    Prop where
  zero_mem : C A.zero
  one_mem : C A.one
  add_mem : ∀ {a b : α}, C a → C b → C (A.add a b)
  mul_mem : ∀ {a b : α}, C a → C b → C (A.mul a b)
  neg_mem : ∀ {a : α}, C a → C (A.neg a)
  injective : ∀ {a b : α}, C a → C b → f a = f b → a = b
  map_zero : f A.zero = 0
  map_one : f A.one = 1
  map_add : ∀ {a b : α}, C a → C b → f (A.add a b) = f a + f b
  map_mul : ∀ {a b : α}, C a → C b → f (A.mul a b) = f a * f b
  map_neg : ∀ {a : α}, C a → f (A.neg a) = -f a

namespace Arithmetic.Represents

variable {S : Type*} [Ring S] {A : Arithmetic α} {C : α → Prop} {f : α → S}
  (h : A.Represents C f)
include h

/-- The laws of the ring that is represented hold for the elements that represent it. -/
theorem ringLaws : A.RingLaws C where
  zero_mem := h.zero_mem
  one_mem := h.one_mem
  add_mem := h.add_mem
  mul_mem := h.mul_mem
  neg_mem := h.neg_mem
  add_assoc ha hb hc := by
    apply h.injective (h.add_mem (h.add_mem ha hb) hc) (h.add_mem ha (h.add_mem hb hc))
    rw [h.map_add (h.add_mem ha hb) hc, h.map_add ha hb, h.map_add ha (h.add_mem hb hc),
      h.map_add hb hc, add_assoc]
  add_comm ha hb := by
    apply h.injective (h.add_mem ha hb) (h.add_mem hb ha)
    rw [h.map_add ha hb, h.map_add hb ha, add_comm]
  zero_add ha := by
    apply h.injective (h.add_mem h.zero_mem ha) ha
    rw [h.map_add h.zero_mem ha, h.map_zero, zero_add]
  neg_add ha := by
    apply h.injective (h.add_mem (h.neg_mem ha) ha) h.zero_mem
    rw [h.map_add (h.neg_mem ha) ha, h.map_neg ha, h.map_zero, neg_add_cancel]
  mul_assoc ha hb hc := by
    apply h.injective (h.mul_mem (h.mul_mem ha hb) hc) (h.mul_mem ha (h.mul_mem hb hc))
    rw [h.map_mul (h.mul_mem ha hb) hc, h.map_mul ha hb, h.map_mul ha (h.mul_mem hb hc),
      h.map_mul hb hc, mul_assoc]
  one_mul ha := by
    apply h.injective (h.mul_mem h.one_mem ha) ha
    rw [h.map_mul h.one_mem ha, h.map_one, one_mul]
  mul_one ha := by
    apply h.injective (h.mul_mem ha h.one_mem) ha
    rw [h.map_mul ha h.one_mem, h.map_one, mul_one]
  mul_add ha hb hc := by
    apply h.injective (h.mul_mem ha (h.add_mem hb hc))
      (h.add_mem (h.mul_mem ha hb) (h.mul_mem ha hc))
    rw [h.map_mul ha (h.add_mem hb hc), h.map_add hb hc,
      h.map_add (h.mul_mem ha hb) (h.mul_mem ha hc), h.map_mul ha hb, h.map_mul ha hc, mul_add]
  add_mul ha hb hc := by
    apply h.injective (h.mul_mem (h.add_mem ha hb) hc)
      (h.add_mem (h.mul_mem ha hc) (h.mul_mem hb hc))
    rw [h.map_mul (h.add_mem ha hb) hc, h.map_add ha hb,
      h.map_add (h.mul_mem ha hc) (h.mul_mem hb hc), h.map_mul ha hc, h.map_mul hb hc, add_mul]

/-- Elements that represent a commutative ring commute. -/
theorem commutes (hS : ∀ x y : S, x * y = y * x) : A.Commutes C := by
  intro a b ha hb
  apply h.injective (h.mul_mem ha hb) (h.mul_mem hb ha)
  rw [h.map_mul ha hb, h.map_mul hb ha, hS]

/-- Elements that represent a ring without zero divisors have none. -/
theorem hasNoZeroDivisors [NoZeroDivisors S] : A.HasNoZeroDivisors C := by
  intro a b ha hb hzero
  have hproduct : f a * f b = 0 := by
    rw [← h.map_mul ha hb, hzero, h.map_zero]
  rcases mul_eq_zero.1 hproduct with hfa | hfb
  · exact .inl (h.injective ha h.zero_mem (hfa.trans h.map_zero.symm))
  · exact .inr (h.injective hb h.zero_mem (hfb.trans h.map_zero.symm))

end Arithmetic.Represents

end PolynomialText
