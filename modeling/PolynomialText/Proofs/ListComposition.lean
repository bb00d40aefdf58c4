import PolynomialText.Proofs.HeaderText
import PolynomialText.Proofs.MovedExpressions
import PolynomialText.Proofs.StoredDecimals

/-!
# Lists are put together from expressions

Token sequences that are expressions of their own, written with commas between them and parentheses
around them, are the list of what they are read as, and nothing behind the list is touched. Whatever
such a sequence is made of, it ends at the comma: trailing signs, marks and stray operators do not
reach over it. Parentheses around a sequence add a factor one and a level, and no more.
-/

namespace PolynomialText

/-! ### One as a factor -/

/-- One is a neutral left factor of what is read and computed. -/
structure Arithmetic.Unital {α : Type} (A : Arithmetic α) (C : α → Prop) : Prop extends
    A.ReadsInto C where
  one_ne_zero : A.one ≠ A.zero
  one_mul : ∀ {c : α}, C c → A.mul A.one c = c

theorem Poly.zero_add {α : Type} {A : Arithmetic α} {nvars : Nat} {p : Poly α}
    (hp : Canonical A nvars p) : add A zero p = p := ofTerms_of_perm hp (.refl _)

namespace PolyRing

variable {α : Type} {R : PolyRing α} {C : α → Prop}

theorem one_mul (h : R.coefficients.Unital C) {p : Poly α} (hp : R.CanonicalPoly C p) :
    R.one.mul R.coefficients p = p := by
  have hterm : ∀ t ∈ p.terms,
      Poly.mulTerm R.coefficients (.zero R.nvars, R.coefficients.one) t = t := by
    intro t ht
    rw [Poly.mulTerm, h.one_mul (hp.coefficients t ht), ← hp.length t ht, Exponents.zero_add]
  rw [one_eq_single h.one_ne_zero, Poly.mul, List.flatMap_singleton, List.map_congr_left hterm,
    List.map_id']
  exact Poly.ofTerms_of_perm hp.toCanonical (.refl _)

theorem unital_arithmetic (h : R.coefficients.Unital C) : R.arithmetic.Unital (R.CanonicalPoly C) where
  toReadsInto := readsInto_canonical h.toReadsInto
  one_ne_zero := one_ne_zero h.one_ne_zero
  one_mul := one_mul h

end PolyRing

/-- Residues are small enough to stay as they are. -/
theorem Extension.unital_arithmetic {α : Type} {A : Arithmetic α} {K : α → Prop} {E : Extension α}
    (hA : A.Unital K) (hlaws : A.RingLaws K) (hE : E.Defined A K) :
    (E.arithmetic A).Unital (E.IsResidue A K) where
  toReadsInto := readsInto_isResidue hA.toReadsInto hlaws hA.one_ne_zero hE
  one_ne_zero := PolyRing.one_ne_zero hA.one_ne_zero
  one_mul {p} hp := by
    have hproduct : (E.ring A).one.mul A p = p := PolyRing.one_mul (R := E.ring A) hA hp.canonical
    change E.reduce A ((E.ring A).one.mul A p) = p
    rw [hproduct, reduce_of_top_lt A E hp.low]

/-- A ring of numbers with at least two elements. -/
theorem Arithmetic.RingLaws.unital {α : Type} {A : Arithmetic α} {C : α → Prop} (h : A.RingLaws C)
    (hread : A.ReadsInto C) (hone : A.one ≠ A.zero) : A.Unital C := ⟨hread, hone, h.one_mul⟩

theorem Arithmetic.Extendable.unital {α S : Type} [CommRing S] {A : Arithmetic α} {K : α → Prop}
    {f : α → S} {inverse : α → Except RingFault α} (h : A.Extendable K f inverse) : A.Unital K :=
  h.represents.ringLaws.unital h.readsInto h.one_ne_zero

/-- In every ring of coefficients one is a neutral left factor. -/
theorem Arithmetic.Built.exists_unital {α : Type} {A : Arithmetic α} {C : α → Prop}
    {same : α → α → Prop} (h : A.Built C same) : ∃ D, A.Unital D := by
  induction h with
  | rational => exact ⟨_, Arithmetic.Extendable.rational.unital⟩
  | integer => exact ⟨_, Integer.ringLaws.unital Integer.numberRing.readsInto (by decide)⟩
  | word m => exact ⟨_, (Arithmetic.Extendable.word m).unital⟩
  | big m => exact ⟨_, (Arithmetic.Extendable.big m).unital⟩
  | complex => exact ⟨_, Gaussian.ringLaws.unital Gaussian.numberRing.readsInto (by decide)⟩
  | quaternion => exact ⟨_, Quaternion.ringLaws.unital Quaternion.numberRing.readsInto (by decide)⟩
  | octonion => exact ⟨_, Octonion.readsInto, Octonion.units.one_ne_zero, Octonion.units.one_mul⟩
  | decimal => exact ⟨_, FixedDecimal.readsInto_stored, by decide, FixedDecimal.one_mul⟩
  | polynomials R _ ih =>
    obtain ⟨D, hD⟩ := ih
    exact ⟨_, PolyRing.unital_arithmetic hD⟩
  | extension base canonical make_eq =>
    have hE := Extension.defined_of_make (fun _ hb => base.mul_inverse hb) canonical make_eq
    exact ⟨_, Extension.unital_arithmetic base.unital base.represents.ringLaws hE⟩

/-! ### Elements -/

/-- The tokens are an expression of their own with a value: it is read up to the end of the source. -/
def PolyRing.Accepts {α : Type} (R : PolyRing α) (limits : Limits) (tokens : List Token) (p : Poly α) :
    Prop :=
  ∃ s s' : Session, s.At limits 0 tokens ∧ Reader.expression R none s = .ok (p, .finish) s'

/-- An element of a list, with its value: an expression, or an expression in parentheses that needs
one level less than the limit allows. -/
inductive PolyRing.Element {α : Type} (R : PolyRing α) (limits : Limits) : List Token → Poly α → Prop
  | bare {tokens : List Token} {p : Poly α} (accepts : R.Accepts limits tokens p) :
    Element R limits tokens p
  | enclosed {low : Limits} {tokens : List Token} {p : Poly α} (accepts : R.Accepts low tokens p)
    (room : low.maxDepth.toNat + 1 ≤ limits.maxDepth.toNat) :
    Element R limits (.op '(' :: (tokens ++ [.op ')'])) p

section

variable {α : Type} {R : PolyRing α} {C : α → Prop} {limits : Limits} {tokens tail behind : List Token}
  {p : Poly α} {terminator : Terminator}

/-- The value of an expression of its own is canonical. -/
theorem PolyRing.Accepts.canonicalPoly (h : R.Accepts limits tokens p) (hR : R.coefficients.ReadsInto C) :
    R.CanonicalPoly C p := by
  obtain ⟨s, s', -, hrun⟩ := h
  exact (Reader.gives_expression hR none s _ s' rfl hrun).2.canonicalOver R.closed_supports

open Grammar in
/-- In front of a delimiter, with at least as much room, an expression of its own is read as before. -/
theorem PolyRing.Accepts.reads {low : Limits} {depth : Nat} {closer : Option Char}
    (h : R.Accepts low tokens p) (hR : R.coefficients.Portable)
    (htokens : ∀ t ∈ tokens, t.Given false closer) (hroom : low.room 0 ≤ limits.room depth)
    (hends : Ends closer tail terminator behind) :
    Reads R limits depth closer (.start R) (tokens ++ tail) (.ok (p, terminator) behind) := by
  obtain ⟨s, s', hs, hrun⟩ := h
  obtain ⟨rest, hreads, -⟩ := Reader.reads_of_expression hs hrun
  exact (hreads.carried hR hends rfl htokens (.inr rfl) (fun _ => hroom) rfl fun _ => rfl).1

open Grammar in
/-- An element of a list is read up to the delimiter behind it. -/
theorem PolyRing.Element.reads (h : R.Element limits tokens p) (hR : R.coefficients.Portable)
    (hunital : R.coefficients.Unital C) (htokens : ∀ t ∈ tokens, t.Given false none)
    (hends : Ends none tail terminator behind) :
    Reads R limits 0 none (.start R) (tokens ++ tail) (.ok (p, terminator) behind) := by
  cases h with
  | bare accepts => exact accepts.reads hR htokens (Int.le_refl _) hends
  | @enclosed low tokens p accepts room =>
    have hp := accepts.canonicalPoly hunital.toReadsInto
    have hinner : Reads R limits 1 none (.start R) (tokens ++ .op ')' :: tail) (.ok (p, .close) tail) := by
      refine accepts.reads hR (fun t ht => htokens t ?_) ?_ (.close tail)
      · exact List.mem_cons_of_mem _ (List.mem_append_left _ ht)
      · unfold Limits.room
        omega
    -- Behind the parentheses there is no exponent, and no sign that would finish the term.
    have hbehind : .behind ((closed (.ok (p, .close) tail)).bind (Grammar.multiplied R (.start R))) =
        Pass.more ((Accumulator.start R).multiply R (.polynomial p) 1) tail := by
      cases hends with
      | finish => rfl
      | comma rest => rfl
      | close rest => rfl
    have hpower : R.pow p 1 = p := (R.arithmetic.pow_one p).trans (PolyRing.one_mul hunital hp)
    have htotal : ((Accumulator.start R).multiply R (.polynomial p) 1).total R = p := by
      change Poly.add R.coefficients .zero (R.one.mul R.coefficients (R.pow p 1)) = p
      rw [hpower, PolyRing.one_mul hunital hp, Poly.zero_add hp.toCanonical]
    have hlast : pass R limits 0 none ((Accumulator.start R).multiply R (.polynomial p) 1) tail =
        .last (.ok (p, terminator) behind) := by
      rw [hends.pass_eq, htotal]
    have hopens : pass R limits 0 none (.start R) (.op '(' :: (tokens ++ .op ')' :: tail)) =
        .opens (tokens ++ .op ')' :: tail) := by
      change (if limits.maxDepth.toNat < 0 + 1 then _ else _) = _
      rw [if_neg (by omega)]
      rfl
    rw [List.cons_append, List.append_assoc]
    exact .groupMore hopens hinner hbehind (.last hlast)

/-- No element starts with the closing parenthesis of a list. -/
theorem PolyRing.Element.head_ne {t : Token} (h : R.Element limits (t :: tokens) p) : t ≠ .op ')' := by
  rintro rfl
  cases h with
  | bare accepts =>
    obtain ⟨s, s', hs, hrun⟩ := accepts
    obtain ⟨rest, hreads, -⟩ := Reader.reads_of_expression hs hrun
    have hclose : Grammar.pass R limits 0 none (.start R) (.op ')' :: tokens) =
        .last (.ok ((Accumulator.start R).total R, .close) tokens) := rfl
    generalize hfinish : Outcome.ok (p, Terminator.finish) rest = outcome at hreads
    cases hreads with
    | last hpass =>
      rw [hclose, ← hfinish] at hpass
      have hresult := Except.ok.inj (Outcome.mk.inj (Grammar.Pass.last.inj hpass)).1
      exact absurd (Prod.mk.inj hresult).2 (by simp)
    | more hpass =>
      rw [hclose] at hpass
      contradiction
    | group hpass =>
      rw [hclose] at hpass
      contradiction
    | groupMore hpass =>
      rw [hclose] at hpass
      contradiction

/-- A list of elements, with their values: at least one, and not a single empty one. -/
structure PolyRing.IsList (R : PolyRing α) (limits : Limits) (items : List (List Token × Poly α)) :
    Prop where
  ne_nil : items ≠ []
  ne_empty : items.map Prod.fst ≠ [[]]
  elements : ∀ item ∈ items, R.Element limits item.1 item.2

/-- Behind the opening parenthesis the closing one does not follow at once. -/
theorem PolyRing.IsList.head_ne {items : List (List Token × Poly α)} (h : R.IsList limits items)
    {rest more : List Token} :
    Token.separated (items.map Prod.fst) ++ .op ')' :: rest ≠ .op ')' :: more := by
  obtain ⟨⟨tokens, p⟩, items, rfl⟩ := List.exists_cons_of_ne_nil h.ne_nil
  have helement : R.Element limits tokens p := h.elements (tokens, p) List.mem_cons_self
  intro heq
  cases tokens with
  | nil =>
    cases items with
    | nil => exact h.ne_empty rfl
    | cons next items => exact absurd (List.cons.inj heq).1 (by simp)
  | cons t tokens =>
    have hhead : t = .op ')' := by
      cases items with
      | nil => exact (List.cons.inj heq).1
      | cons next items => exact (List.cons.inj heq).1
    exact helement.head_ne hhead

/-- The tokens of a list of elements. -/
def PolyRing.listTokens (items : List (List Token × Poly α)) : List Token :=
  .op '(' :: (Token.separated (items.map Prod.fst) ++ [.op ')'])

end

/-- The tokens of the parts stand between the commas. -/
theorem Token.mem_separated {parts : List (List Token)} {part : List Token} (hpart : part ∈ parts)
    {t : Token} (ht : t ∈ part) : t ∈ separated parts := by
  induction parts with
  | nil => exact absurd hpart List.not_mem_nil
  | cons first parts ih =>
    cases parts with
    | nil =>
      obtain rfl := List.mem_singleton.1 hpart
      exact ht
    | cons next parts =>
      rw [separated, List.mem_append, List.mem_cons]
      rcases List.mem_cons.1 hpart with rfl | hrest
      · exact .inl ht
      · exact .inr (.inr (ih hrest))

namespace Reader

section

variable {α β : Type} {R : PolyRing α} {C : α → Prop} {limits : Limits} {depth : Nat}
  {tokens rest : List Token}

/-- Looking at a character where nothing is held. -/
theorem takes_peek_sighted {f : Option Char → Reader β} {b : β} {Q : Session → Prop}
    (hf : ∀ c, Grammar.Sighted tokens c → Takes (f c) (Session.Free limits depth tokens) b Q) :
    Takes (peek 0 >>= f) (Session.Free limits depth tokens) b Q := by
  intro s hs
  obtain ⟨c, scanner, hpeek, hsighted, hheld, hsees⟩ := hs.sees.sighted [] hs.free
  obtain ⟨s', hrun, hs'⟩ := hf c hsighted { s with scanner } ⟨⟨hs.limits_eq, hs.depth_eq, hsees⟩, hheld⟩
  refine ⟨s', ?_, hs'⟩
  have hlook : peek 0 s = .ok c { s with scanner } := by
    simp only [peek, scanning, List.length_nil] at hpeek ⊢
    rw [hpeek]
  change EStateM.bind (peek 0) f s = _
  simp only [EStateM.bind, hlook, hrun]

variable (hR : R.coefficients.Portable) (hunital : R.coefficients.Unital C)
include hR hunital

/-- Elements, commas and a closing parenthesis are collected. -/
theorem takes_iterate_elements {items : List (List Token × Poly α)} (hne : items ≠ [])
    (helements : ∀ item ∈ items, R.Element limits item.1 item.2)
    (hgiven : ∀ item ∈ items, ∀ t ∈ item.1, t.Given false none) (done : List (Poly α)) {fuel : Nat}
    (hfuel : (Token.separated (items.map Prod.fst) ++ .op ')' :: rest).length < fuel) :
    Takes (iterate (listStep R) fuel done)
      (Session.At limits 0 (Token.separated (items.map Prod.fst) ++ .op ')' :: rest))
      (done ++ items.map Prod.snd) (Session.At limits 0 rest) := by
  induction items generalizing done fuel with
  | nil => exact absurd rfl hne
  | cons item items ih =>
    have hstep : ∀ {tail behind : List Token} {terminator : Terminator},
        Grammar.Ends none tail terminator behind →
        Takes (listStep R done) (Session.At limits 0 (item.1 ++ tail))
          (if terminator = .comma then .inl (done ++ [item.2]) else .inr (done ++ [item.2]))
          (Session.At limits 0 behind) := by
      intro tail behind terminator hends
      have helement := helements item List.mem_cons_self
      have hreads := helement.reads hR hunital (hgiven item List.mem_cons_self) hends
      exact (takes_expression_of_reads hreads).bind (.pure _ _)
    cases items with
    | nil =>
      obtain ⟨spare, rfl⟩ := Nat.exists_eq_add_of_lt hfuel
      exact takes_iterate_inr (hstep (.close rest))
    | cons next items =>
      simp only [List.map_cons, Token.separated, List.append_assoc, List.cons_append,
        List.length_append, List.length_cons] at hfuel ih ⊢
      obtain ⟨spare, rfl⟩ : ∃ spare, fuel = spare + 1 := ⟨fuel - 1, by omega⟩
      have hrest := ih (List.cons_ne_nil _ _) (fun other hother => helements other (List.mem_cons_of_mem _ hother))
        (fun other hother => hgiven other (List.mem_cons_of_mem _ hother)) (done ++ [item.2])
        (by omega : _ < spare)
      rw [List.append_assoc, List.singleton_append] at hrest
      exact takes_iterate_inl (hstep (.comma _)) hrest

/-- A list of elements is read as their values. -/
theorem takes_polynomialList_elements {items : List (List Token × Poly α)} (hitems : R.IsList limits items) :
    Takes (polynomialList R) (Session.At limits 0 (PolyRing.listTokens items ++ rest))
      (items.map Prod.snd) (Session.At limits 0 rest) := by
  rw [PolyRing.listTokens, List.cons_append, List.append_assoc, List.singleton_append]
  apply takes_advance.bind
  intro s hs
  have hfree := hs.toFree
  obtain ⟨text, htext⟩ := hfree.sees.exists_ofText hfree.free
  have hgiven : ∀ item ∈ items, ∀ t ∈ item.1, t.Given false none := by
    intro item hitem t ht
    apply Token.given_of_mem_ofText (t := text) (by simp)
    rw [htext, List.tail_cons]
    exact List.mem_append_left _ (Token.mem_separated (List.mem_map_of_mem hitem) ht)
  have hloop : Takes (loop (listStep R) []) (Session.At limits 0
      (Token.separated (items.map Prod.fst) ++ .op ')' :: rest)) (items.map Prod.snd)
      (Session.At limits 0 rest) :=
    takes_passes fun _ hfuel =>
      takes_iterate_elements hR hunital hitems.ne_nil hitems.elements hgiven [] hfuel
  refine takes_peek_sighted (fun c hc => ?_) s hfree
  have hne : c ≠ some ')' := by
    intro hclose
    have hahead := (hc.eq_some_iff (by decide)).1 hclose
    obtain ⟨more, hmore⟩ := Token.exists_op_of_ahead htext hahead (by decide) (by decide)
    exact hitems.head_ne hmore
  rw [if_neg hne]
  exact hloop.of_imp fun _ => Session.Free.toAt

/-- Rows of lists of elements are read as their values. -/
theorem takes_moduleList_elements {rows : List (List (List Token × Poly α))}
    (hrows : ∀ row ∈ rows, R.IsList limits row) :
    Takes (moduleList R) (Session.At limits 0 (.op '(' ::
      (Token.separated (rows.map PolyRing.listTokens) ++ .op ')' :: rest)))
      (rows.map (·.map Prod.snd)) (Session.At limits 0 rest) := by
  apply takes_next.bind
  refine takes_loop_separated_map (g := PolyRing.listTokens) ?_ (fun row _ => List.cons_ne_nil _ _) ?_ ?_
  · intro row hrow done rest
    refine takes_advance.bind (takes_pushBack.bind ?_)
    exact (takes_polynomialList_elements hR hunital (hrows row hrow)).bind (.pure _ _)
  · exact fun done rest => takes_next.bind (.pure _ _)
  · exact fun done rest => takes_next.bind (.pure _ _)

end

end Reader

/-- Over every ring of coefficients, expressions of their own, bare or in parentheses where the limit
allows one more level, with commas between them and parentheses around them, are read as the list of
their values, and exactly what follows is left. Rows of such lists are read as those lists. -/
theorem lists_are_composed {α : Type} {C : α → Prop} {same : α → α → Prop} (R : PolyRing α)
    (h : R.coefficients.Built C same) (limits : Limits) (rest : List Token) :
    (∀ items : List (List Token × Poly α), R.IsList limits items →
      Reader.Takes (Reader.polynomialList R) (Session.At limits 0 (PolyRing.listTokens items ++ rest))
        (items.map Prod.snd) (Session.At limits 0 rest)) ∧
    ∀ rows : List (List (List Token × Poly α)), (∀ row ∈ rows, R.IsList limits row) →
      Reader.Takes (Reader.moduleList R) (Session.At limits 0 (.op '(' ::
        (Token.separated (rows.map PolyRing.listTokens) ++ .op ')' :: rest)))
        (rows.map (·.map Prod.snd)) (Session.At limits 0 rest) := by
  obtain ⟨D, hunital⟩ := h.exists_unital
  constructor
  · exact fun items hitems => Reader.takes_polynomialList_elements h.portable hunital hitems
  · exact fun rows hrows => Reader.takes_moduleList_elements h.portable hunital hrows

/-- Modulo six, within two levels: an expression that ends in a mark, an empty one, and one in
parentheses that ends in a star. -/
theorem composed_lists_modulo_six :
    let m : WordModulus := ⟨6, by decide⟩
    let R : PolyRing UInt64 := ⟨m.arithmetic, [['x'], ['y']], {}⟩
    let limits : Limits := { maxDepth := 2 }
    let list : List (Poly UInt64) := [⟨[([1, 0], 1)]⟩, .zero, ⟨[([0, 2], 1), ([1, 1], 2), ([2, 0], 1)]⟩]
    (∃ s s', s = Session.ofText "( x ^ , , ( (x + y)^2 * ) ) y".toList limits ∧
      Reader.polynomialList R s = .ok list s' ∧ s'.At limits 0 [.word ['y']]) ∧
    ∃ s s', s = Session.ofText
        "( ( x ^ , , ( (x + y)^2 * ) ) , ( x ^ , , ( (x + y)^2 * ) ) ) y".toList limits ∧
      Reader.moduleList R s = .ok [list, list] s' ∧ s'.At limits 0 [.word ['y']] := by
  intro m R limits list
  let items : List (List Token × Poly UInt64) :=
    [(Token.ofText "x ^".toList, ⟨[([1, 0], 1)]⟩), ([], .zero),
      (.op '(' :: (Token.ofText "(x + y)^2 *".toList ++ [.op ')']),
        ⟨[([0, 2], 1), ([1, 1], 2), ([2, 0], 1)]⟩)]
  have haccepts : ∀ {low : Limits} {t : Text} {p : Poly UInt64},
      (∃ s', Reader.expression R none (.ofText t low) = .ok (p, .finish) s') →
      R.Accepts low (Token.ofText t) p := fun ⟨s', hrun⟩ => ⟨_, s', Session.at_ofText _ _ 0, hrun⟩
  have hmark : R.Accepts limits (Token.ofText "x ^".toList) ⟨[([1, 0], 1)]⟩ :=
    haccepts (Reader.exists_eq_ok (by decide +kernel))
  have hempty : R.Accepts limits [] .zero := by
    rw [← Token.ofText_of_start_nil (t := []) rfl]
    exact haccepts (Reader.exists_eq_ok (by decide +kernel))
  have hstar : R.Accepts { maxDepth := 1 } (Token.ofText "(x + y)^2 *".toList)
      ⟨[([0, 2], 1), ([1, 1], 2), ([2, 0], 1)]⟩ := haccepts (Reader.exists_eq_ok (by decide +kernel))
  have hitems : R.IsList limits items := by
    refine ⟨List.cons_ne_nil _ _, by decide +kernel, ?_⟩
    simp only [items, List.forall_mem_cons]
    exact ⟨.bare hmark, .bare hempty, .enclosed hstar (by decide), fun _ h => absurd h List.not_mem_nil⟩
  have hlist : Token.ofText "( x ^ , , ( (x + y)^2 * ) ) y".toList =
      PolyRing.listTokens items ++ [.word ['y']] := by decide +kernel
  have hrows : Token.ofText
      "( ( x ^ , , ( (x + y)^2 * ) ) , ( x ^ , , ( (x + y)^2 * ) ) ) y".toList =
      .op '(' :: (Token.separated ([items, items].map PolyRing.listTokens) ++ .op ')' :: [.word ['y']]) := by
    decide +kernel
  have hcompose := lists_are_composed R (.word m) limits [.word ['y']]
  obtain ⟨s', hread, hs'⟩ := hcompose.1 items hitems _ (hlist ▸ Session.at_ofText _ limits 0)
  obtain ⟨u, hmodule, hu⟩ := hcompose.2 [items, items] (by simpa using hitems) _
    (hrows ▸ Session.at_ofText _ limits 0)
  exact ⟨⟨_, s', rfl, hread, hs'⟩, _, u, rfl, hmodule, hu⟩

end PolynomialText
