import Mathlib.Data.List.Nodup
import PolynomialText.Number.Integer
import PolynomialText.Proofs.MonomialOrders

/-!
# Terms from the largest one down

A polynomial is stored by its exponents and written by the term order of its ring. Weights that pass
128 bits are compared as they are kept, which is no longer a monomial order but still a total order
of the vectors of one length. So distinct terms never compare equal, whatever the order: sorting them
and scanning them for the largest one agree, and neither depends on how the terms are stored.
-/

namespace PolynomialText

/-! ### Comparison of what is kept -/

namespace TermOrder

open Exponents

/-- The forms by which an order compares vectors of one length, with weights as they are kept. -/
def keptForms (order : TermOrder) (nvars : Nat) : List (Exponents → Int) :=
  match order.weights with
  | some rows => (rows.map fun row e => (weight row e : Int)) ++ lastCoordinates nvars
  | none => blockForms order.kind nvars 0 (order.split.points ++ [nvars])

variable {order : TermOrder} {nvars : Nat} {a b c : Exponents}

/-- Every order compares vectors of one length by forms, also where weights are cut off. -/
theorem compare_eq_compareBy_kept (ha : a.length = nvars) (hb : b.length = nvars) :
    order.compare a b = compareBy (order.keptForms nvars) a b := by
  cases hweights : order.weights with
  | some rows =>
    simp only [compare, keptForms, hweights]
    exact compareWeights_eq_compareBy ha hb rows (fun _ _ => rfl) (fun _ _ => rfl)
  | none =>
    simp only [compare, keptForms, hweights, ha]
    exact compareBlocks_eq_compareBy order.kind ha hb 0 _

theorem compare_swap (ha : a.length = nvars) (hb : b.length = nvars) :
    order.compare b a = (order.compare a b).swap := by
  have htrans := transCmp_compareBy (order.keptForms nvars)
  rw [compare_eq_compareBy_kept hb ha, compare_eq_compareBy_kept ha hb]
  exact Std.OrientedCmp.eq_swap

theorem compare_self (ha : a.length = nvars) : order.compare a a = .eq := by
  have htrans := transCmp_compareBy (order.keptForms nvars)
  rw [compare_eq_compareBy_kept ha ha]
  exact Std.ReflCmp.compare_self

theorem compare_ne_lt_trans (ha : a.length = nvars) (hb : b.length = nvars) (hc : c.length = nvars)
    (hab : order.compare a b ≠ .lt) (hbc : order.compare b c ≠ .lt) : order.compare a c ≠ .lt := by
  have htrans := transCmp_compareBy (order.keptForms nvars)
  rw [compare_eq_compareBy_kept ha hb] at hab
  rw [compare_eq_compareBy_kept hb hc] at hbc
  rw [compare_eq_compareBy_kept ha hc]
  exact Ordering.isGE_iff_ne_lt.1
    (Std.TransCmp.isGE_trans (Ordering.isGE_iff_ne_lt.2 hab) (Ordering.isGE_iff_ne_lt.2 hbc))

end TermOrder

/-! ### Sorting and scanning -/

namespace PolyRing

variable {α : Type} (R : PolyRing α)

/-- Every term is larger than those behind it. -/
def Descends (terms : List (Exponents × α)) : Prop :=
  terms.Pairwise fun s t => R.order.compare s.1 t.1 = .gt

/-- Terms as text, in the order given. -/
def listing : List (Exponents × α) → Text
  | [] => ['0']
  | first :: rest => R.termText true first ++ rest.flatMap (R.termText false)

/-- Terms with distinct monomials in the variables of the ring. -/
structure Distinct (terms : List (Exponents × α)) : Prop where
  length : ∀ t ∈ terms, t.1.length = R.nvars
  nodup : (terms.map Prod.fst).Nodup

variable {R} {p : Poly α}

theorem format_eq_listing (p : Poly α) : R.format p = R.listing (R.descending p) := by
  unfold format listing
  cases R.descending p <;> rfl

theorem distinct_of_canonical (hp : p.Canonical R.coefficients R.nvars) : R.Distinct p.terms where
  length := hp.length
  nodup := by
    refine List.pairwise_map.2 (hp.ascending.imp fun {s t} hlt heq => ?_)
    exact t.1.not_cmp_self_lt (heq ▸ hlt)

theorem Distinct.perm {terms terms' : List (Exponents × α)} (h : R.Distinct terms)
    (hperm : terms'.Perm terms) : R.Distinct terms' where
  length t ht := h.length t (hperm.mem_iff.1 ht)
  nodup := (hperm.map Prod.fst).nodup_iff.2 h.nodup

theorem Distinct.eq_of_fst_eq {terms : List (Exponents × α)} (h : R.Distinct terms)
    {s t : Exponents × α} (hs : s ∈ terms) (ht : t ∈ terms) (heq : s.1 = t.1) : s = t :=
  List.inj_on_of_nodup_map h.nodup hs ht heq

/-- Terms that compare equal are the same term. -/
theorem Distinct.eq_of_compare {terms : List (Exponents × α)} (h : R.Distinct terms)
    {s t : Exponents × α} (hs : s ∈ terms) (ht : t ∈ terms)
    (heq : R.order.compare s.1 t.1 = .eq) : s = t :=
  h.eq_of_fst_eq hs ht (TermOrder.eq_of_compare ((h.length s hs).trans (h.length t ht).symm) heq)

/-- Sorting by the order of the ring is sorting by the forms that it keeps. -/
theorem descending_eq_mergeSort (hp : R.Distinct p.terms) :
    R.descending p = p.terms.mergeSort fun s t =>
      (Exponents.compareBy (R.order.keptForms R.nvars) t.1 s.1).isLE := by
  have hsort := List.map_mergeSort (f := id) (l := p.terms)
    (r := fun s t => R.order.compare t.1 s.1 != .gt)
    (s := fun s t => (Exponents.compareBy (R.order.keptForms R.nvars) t.1 s.1).isLE)
    fun s hs t ht => by
      rw [TermOrder.compare_eq_compareBy_kept (hp.length t ht) (hp.length s hs), id, id]
      cases Exponents.compareBy (R.order.keptForms R.nvars) t.1 s.1 <;> rfl
  rwa [List.map_id, List.map_id] at hsort

/-- Distinct terms are sorted strictly. -/
theorem descends_descending (hp : R.Distinct p.terms) : R.Descends (R.descending p) := by
  have htrans := Exponents.transCmp_compareBy (R.order.keptForms R.nvars)
  have hdistinct := hp.perm (R.descending_perm p)
  have hsorted : (R.descending p).Pairwise fun s t =>
      (Exponents.compareBy (R.order.keptForms R.nvars) t.1 s.1).isLE := by
    rw [descending_eq_mergeSort hp]
    apply List.pairwise_mergeSort
    · exact fun s t u hst htu => Std.TransCmp.isLE_trans htu hst
    · intro s t
      have hswap : Exponents.compareBy (R.order.keptForms R.nvars) t.1 s.1 =
          (Exponents.compareBy (R.order.keptForms R.nvars) s.1 t.1).swap := Std.OrientedCmp.eq_swap
      rw [hswap]
      cases Exponents.compareBy (R.order.keptForms R.nvars) s.1 t.1 <;> rfl
  refine (hsorted.and (List.pairwise_map.1 hdistinct.nodup)).imp_of_mem fun {s t} hs ht h => ?_
  have hlengths := hdistinct.length s hs
  have hlengtht := hdistinct.length t ht
  rw [← TermOrder.compare_eq_compareBy_kept hlengtht hlengths] at h
  have hne : R.order.compare t.1 s.1 ≠ .eq := fun heq =>
    h.2 (congrArg Prod.fst (hdistinct.eq_of_compare ht hs heq)).symm
  rw [TermOrder.compare_swap hlengtht hlengths,
    (Ordering.isLE_iff_eq_lt_or_eq_eq.1 h.1).resolve_right hne]
  rfl

/-- There is one way only to list distinct terms from the largest one down. -/
theorem eq_descending_of_perm (hp : R.Distinct p.terms) {terms : List (Exponents × α)}
    (hperm : terms.Perm p.terms) (hterms : R.Descends terms) : terms = R.descending p := by
  have hperm' := hperm.trans (R.descending_perm p).symm
  refine hperm'.eq_of_pairwise (fun s t hs ht hst hts => ?_) hterms (descends_descending hp)
  rw [TermOrder.compare_swap (hp.length s (hperm.mem_iff.1 hs))
    (hp.length t ((R.descending_perm p).mem_iff.1 ht)), hst] at hts
  contradiction

/-- The larger of two terms is one of them, and neither is larger than it. -/
theorem larger_spec {s t : Exponents × α} (hs : s.1.length = R.nvars) (ht : t.1.length = R.nvars) :
    (R.larger s t = s ∨ R.larger s t = t) ∧ R.order.compare (R.larger s t).1 s.1 ≠ .lt ∧
      R.order.compare (R.larger s t).1 t.1 ≠ .lt := by
  unfold larger
  split
  · rename_i hgt
    exact ⟨.inl rfl, by simp [TermOrder.compare_self hs], by simp [hgt]⟩
  · rename_i hngt
    refine ⟨.inr rfl, ?_, by simp [TermOrder.compare_self ht]⟩
    rw [TermOrder.compare_swap hs ht]
    simpa using hngt

/-- The scan ends with one of the terms, and no term is larger. -/
theorem foldl_larger_spec {first : Exponents × α} {rest : List (Exponents × α)}
    (hlength : ∀ t ∈ first :: rest, t.1.length = R.nvars) :
    rest.foldl R.larger first ∈ first :: rest ∧
      ∀ s ∈ first :: rest, R.order.compare (rest.foldl R.larger first).1 s.1 ≠ .lt := by
  induction rest generalizing first with
  | nil =>
    refine ⟨List.mem_cons_self, fun s hs => ?_⟩
    rw [List.mem_singleton.1 hs, List.foldl_nil, TermOrder.compare_self (hlength _ List.mem_cons_self)]
    decide
  | cons next rest ih =>
    obtain ⟨hfirst, hnext, hrest⟩ : first.1.length = R.nvars ∧ next.1.length = R.nvars ∧
        ∀ t ∈ rest, t.1.length = R.nvars := by
      simpa only [List.forall_mem_cons] using hlength
    obtain ⟨heither, hgefirst, hgenext⟩ := larger_spec hfirst hnext
    have hwinner : (R.larger first next).1.length = R.nvars := by
      rcases heither with heq | heq <;> rwa [heq]
    have hshorter : ∀ t ∈ R.larger first next :: rest, t.1.length = R.nvars :=
      List.forall_mem_cons.2 ⟨hwinner, hrest⟩
    obtain ⟨hmem, hge⟩ := ih hshorter
    obtain ⟨hgewinner, hgerest⟩ := List.forall_mem_cons.1 hge
    have hlast := hshorter _ hmem
    rw [List.foldl_cons, List.forall_mem_cons, List.forall_mem_cons]
    refine ⟨?_, TermOrder.compare_ne_lt_trans hlast hwinner hfirst hgewinner hgefirst,
      TermOrder.compare_ne_lt_trans hlast hwinner hnext hgewinner hgenext, hgerest⟩
    rcases List.mem_cons.1 hmem with heq | hin
    · rw [heq]
      rcases heither with heq' | heq' <;> simp [heq']
    · exact List.mem_cons_of_mem _ (List.mem_cons_of_mem _ hin)

/-- The leading term is the one that is larger than all others. -/
theorem leading?_eq_some_iff (hp : R.Distinct p.terms) {t : Exponents × α} :
    R.leading? p = some t ↔
      t ∈ p.terms ∧ ∀ s ∈ p.terms, s.1 ≠ t.1 → R.order.compare t.1 s.1 = .gt := by
  obtain ⟨terms⟩ := p
  cases terms with
  | nil => simp [leading?]
  | cons first rest =>
    obtain ⟨hmem, hge⟩ := foldl_larger_spec hp.length
    have hmax : ∀ s ∈ first :: rest, s.1 ≠ (rest.foldl R.larger first).1 →
        R.order.compare (rest.foldl R.larger first).1 s.1 = .gt := by
      intro s hs hne
      have hneq : R.order.compare (rest.foldl R.larger first).1 s.1 ≠ .eq := fun heq =>
        hne (congrArg Prod.fst (hp.eq_of_compare hmem hs heq)).symm
      cases hcompare : R.order.compare (rest.foldl R.larger first).1 s.1 with
      | lt => exact absurd hcompare (hge s hs)
      | eq => exact absurd hcompare hneq
      | gt => rfl
    rw [leading?, Option.some_inj]
    constructor
    · rintro rfl
      exact ⟨hmem, hmax⟩
    · rintro ⟨ht, hgreatest⟩
      apply hp.eq_of_fst_eq hmem ht
      by_contra hne
      have hlt := hgreatest _ hmem hne
      rw [TermOrder.compare_swap (hp.length _ hmem) (hp.length _ ht),
        hmax t ht (Ne.symm hne)] at hlt
      contradiction

/-- Scanning finds what sorting puts first. -/
theorem leading?_eq_head? (hp : R.Distinct p.terms) : R.leading? p = (R.descending p).head? := by
  have hperm := R.descending_perm p
  have hsorted := descends_descending hp
  cases hlist : R.descending p with
  | nil =>
    rw [hlist] at hperm
    exact (leading?_eq_none_iff R p).2 (congrArg Poly.mk hperm.nil_eq.symm)
  | cons first rest =>
    rw [hlist] at hperm hsorted
    rw [List.head?_cons, leading?_eq_some_iff hp]
    refine ⟨hperm.subset List.mem_cons_self, fun s hs hne => ?_⟩
    rcases List.mem_cons.1 (hperm.mem_iff.2 hs) with rfl | hin
    · exact absurd rfl hne
    · exact (List.pairwise_cons.1 hsorted).1 s hin

end PolyRing

end PolynomialText
