import PolynomialText.Proofs.LiteralCharacters

/-!
# The grammar of hypercomplex literals

A literal of a complex number or a quaternion is a first component, then letters in a fixed order, each
with a component behind it; a letter may be missing together with its component. An octonion is a
quaternion or two of them with an `o` between. Reading looks for each letter in what is left behind the
one found before. Where a letter is repeated or stands too early, it ends up inside a component, and
rational literals have no letters. So every text that is read is put together in the one way that the
grammar describes, and its components are those behind their own letters.
-/

namespace PolynomialText

/-- A letter with what stands behind it, if the letter is there. -/
def marked (letter : Char) : Option Text → Text
  | none => []
  | some part => letter :: part

/-- The letters between components and halves. -/
def isComponentLetter (c : Char) : Bool := "ijko".toList.contains c

theorem isComponentLetter_iff {c : Char} :
    isComponentLetter c = true ↔ c = 'i' ∨ c = 'j' ∨ c = 'k' ∨ c = 'o' := by
  simp [isComponentLetter]

/-- The letters of a text, as they follow each other. -/
def Text.componentLetters (t : Text) : List Char := t.filter isComponentLetter

/-! ### The grammar -/

/-- A part of a literal and its value, which is zero if the part is missing or empty. -/
inductive Literal.IsPart {α : Type} (zero : α) (Reads : Text → α → Prop) : Option Text → α → Prop
  | absent : IsPart zero Reads none zero
  | empty : IsPart zero Reads (some []) zero
  | literal {part : Text} {a : α} (reads : Reads part a) : IsPart zero Reads (some part) a

/-- A component is a rational literal, if there is something in it. -/
def Components.IsComponent : Option Text → Rat → Prop :=
  Literal.IsPart 0 fun part r => Rational.readRational part = .ok r

open Components (IsComponent)

/-- A complex number and its literals, without white space and tildes. -/
inductive Gaussian.IsLiteral : Text → Gaussian → Prop
  | components {re : Text} {im : Option Text} {a : Gaussian} (ne_nil : ¬ (re = [] ∧ im.getD [] = []))
    (re_eq : IsComponent (some re) a.re) (im_eq : IsComponent im a.im) :
    IsLiteral (re ++ marked 'i' im) a

/-- A quaternion and its literals, without white space and tildes. -/
inductive Quaternion.IsLiteral : Text → Quaternion → Prop
  | components {re : Text} {i j k : Option Text} {q : Quaternion}
    (ne_nil : ¬ (re = [] ∧ i.getD [] = [] ∧ j.getD [] = [] ∧ k.getD [] = []))
    (re_eq : IsComponent (some re) q.re) (i_eq : IsComponent i q.i) (j_eq : IsComponent j q.j)
    (k_eq : IsComponent k q.k) : IsLiteral (re ++ marked 'i' i ++ marked 'j' j ++ marked 'k' k) q

/-- A half of an octonion is a quaternion literal, if there is something in it. -/
def Octonion.IsHalf : Option Text → Quaternion → Prop :=
  Literal.IsPart (.ofRat 0) Quaternion.IsLiteral

/-- An octonion and its literals, without white space and tildes. -/
inductive Octonion.IsLiteral : Text → Octonion → Prop
  | halves {left : Text} {right : Option Text} {x : Octonion}
    (ne_nil : ¬ (left = [] ∧ right.getD [] = [])) (left_eq : IsHalf (some left) x.left)
    (right_eq : IsHalf right x.right) : IsLiteral (left ++ marked 'o' right) x

/-- The letters of one quaternion, or of two of them with an `o` between. -/
def Octonion.LettersInOrder (letters : List Char) : Prop :=
  letters.Sublist ['i', 'j', 'k'] ∨ ∃ left right, letters = left ++ 'o' :: right ∧
    left.Sublist ['i', 'j', 'k'] ∧ right.Sublist ['i', 'j', 'k']

/-! ### Cutting a text at its letters -/

namespace Literal

/-- Marked components one after another. -/
def joined : List Char → List (Option Text) → Text
  | letter :: letters, part :: parts => marked letter part ++ joined letters parts
  | _, _ => []

theorem joined_singleton (letter : Char) (part : Option Text) :
    joined [letter] [part] = marked letter part := by
  simp [joined]

theorem joined_three (t : Text) (c d e : Char) (part part' part'' : Option Text) :
    t ++ joined [c, d, e] [part, part', part''] =
      t ++ marked c part ++ marked d part' ++ marked e part'' := by
  simp [joined]

/-- Every text that is cut is a first component with marked ones behind it. -/
theorem exists_joined (letters : List Char) (t : Text) : ∃ first parts,
    parts.length = letters.length ∧ t = first ++ joined letters parts ∧
      components letters t = first :: parts.map (·.getD []) := by
  induction letters generalizing t with
  | nil => exact ⟨t, [], rfl, by simp [joined], rfl⟩
  | cons letter letters ih =>
    rw [components]
    cases hsplit : Text.splitOnce? letter t with
    | some cut =>
      obtain ⟨before, after⟩ := cut
      obtain ⟨first, parts, hlength, hafter, hparts⟩ := ih after
      refine ⟨before, some first :: parts, by simp [hlength], ?_, by simp [hparts]⟩
      rw [Text.eq_of_splitOnce?_eq_some hsplit]
      simp [joined, marked, ← hafter]
    | none =>
      obtain ⟨first, parts, hlength, ht, hparts⟩ := ih t
      exact ⟨first, none :: parts, by simp [hlength], by simpa [joined, marked] using ht,
        by simp [hparts]⟩

/-- Cutting at a single letter leaves what stands before it and behind it. -/
theorem components_singleton (letter : Char) (t : Text) : components [letter] t =
    [((Text.splitOnce? letter t).getD (t, [])).1, ((Text.splitOnce? letter t).getD (t, [])).2] := by
  rw [components]
  cases Text.splitOnce? letter t <;> rfl

/-- The characters of marked components. -/
theorem mem_joined {letters : List Char} {parts : List (Option Text)} {c : Char}
    (hc : c ∈ joined letters parts) : c ∈ letters ∨ ∃ part ∈ parts, c ∈ part.getD [] := by
  induction letters generalizing parts with
  | nil => simp [joined] at hc
  | cons letter letters ih =>
    cases parts with
    | nil => simp [joined] at hc
    | cons part parts =>
      rw [joined, List.mem_append] at hc
      rcases hc with hmarked | hjoined
      · cases part with
        | none => exact absurd hmarked List.not_mem_nil
        | some part =>
          rcases List.mem_cons.1 hmarked with rfl | hpart
          · exact .inl List.mem_cons_self
          · exact .inr ⟨some part, List.mem_cons_self, hpart⟩
      · rcases ih hjoined with hletter | ⟨part, hpart, hmem⟩
        · exact .inl (List.mem_cons_of_mem _ hletter)
        · exact .inr ⟨part, List.mem_cons_of_mem _ hpart, hmem⟩

/-- Different letters that occur in no component are found where they are put. -/
theorem components_joined {letters : List Char} (hnodup : letters.Nodup) {first : Text}
    {parts : List (Option Text)} (hlength : parts.length = letters.length)
    (hfirst : ∀ c ∈ letters, c ∉ first) (hparts : ∀ c ∈ letters, ∀ part ∈ parts, c ∉ part.getD []) :
    components letters (first ++ joined letters parts) = first :: parts.map (·.getD []) := by
  induction letters generalizing first parts with
  | nil =>
    obtain rfl : parts = [] := List.length_eq_zero_iff.1 hlength
    simp [joined, components]
  | cons letter letters ih =>
    cases parts with
    | nil => exact absurd hlength (by simp)
    | cons part parts =>
      obtain ⟨hletter, hnodup⟩ := List.nodup_cons.1 hnodup
      have hlength' : parts.length = letters.length := Nat.succ.inj hlength
      have hfirst' : ∀ c ∈ letters, c ∉ first := fun c hc => hfirst c (List.mem_cons_of_mem _ hc)
      have hrest : ∀ c ∈ letters, ∀ p ∈ parts, c ∉ p.getD [] := fun c hc p hp =>
        hparts c (List.mem_cons_of_mem _ hc) p (List.mem_cons_of_mem _ hp)
      cases part with
      | some part =>
        have hpart : ∀ c ∈ letters, c ∉ part := fun c hc =>
          hparts c (List.mem_cons_of_mem _ hc) (some part) List.mem_cons_self
        rw [joined, marked, List.cons_append, components,
          Text.splitOnce?_append (hfirst letter List.mem_cons_self)]
        simp [ih hnodup hlength' hpart hrest]
      | none =>
        -- The letter is missing: it stands in no component, and the other letters differ from it.
        have hmissing : letter ∉ first ++ joined letters parts := by
          intro hmem
          rcases List.mem_append.1 hmem with hmem | hmem
          · exact hfirst letter List.mem_cons_self hmem
          · rcases mem_joined hmem with hmem | ⟨p, hp, hmem⟩
            · exact hletter hmem
            · exact hparts letter List.mem_cons_self p (List.mem_cons_of_mem _ hp) hmem
        rw [joined, marked, List.nil_append, components, Text.splitOnce?_eq_none_iff.2 hmissing]
        simp [ih hnodup hlength' hfirst' hrest]

/-- The letters of marked components are the marks, if the components have none. -/
theorem filter_joined_sublist {letters : List Char} {parts : List (Option Text)}
    (hparts : ∀ part ∈ parts, ∀ c ∈ part.getD [], isComponentLetter c = false) :
    ((joined letters parts).filter isComponentLetter).Sublist letters := by
  induction letters generalizing parts with
  | nil => simp [joined]
  | cons letter letters ih =>
    cases parts with
    | nil => simp [joined]
    | cons part parts =>
      have hrest := ih fun p hp => hparts p (List.mem_cons_of_mem _ hp)
      rw [joined, List.filter_append]
      cases part with
      | none => exact hrest.cons letter
      | some part =>
        have hnone : part.filter isComponentLetter = [] := by
          rw [List.filter_eq_nil_iff]
          intro c hc
          simp [hparts (some part) List.mem_cons_self c hc]
        rw [marked, List.filter_cons, hnone]
        split
        · exact hrest.cons_cons letter
        · exact hrest.cons letter

/-- A normal literal has no white space and no tilde. -/
theorem of_mem_normalise {t : Text} {c : Char} (hc : c ∈ normalise t) :
    Text.isWhite c = false ∧ c ≠ '~' := by
  obtain ⟨d, hd, rfl⟩ := List.mem_map.1 hc
  have hwhite : Text.isWhite d = false := by simpa using (List.mem_filter.1 hd).2
  split
  · decide
  · rename_i htilde
    exact ⟨hwhite, htilde⟩

/-- Nothing changes in a part of a normal literal when it is brought to normal form again. -/
theorem normalise_eq_self_of_subset {part t : Text} (hpart : part ⊆ normalise t) :
    normalise part = part :=
  normalise_eq_self fun _ hc => of_mem_normalise (hpart hc)

/-- White space and tildes are no letters. -/
theorem componentLetters_normalise (t : Text) :
    (normalise t).componentLetters = t.componentLetters := by
  have hsame : (isComponentLetter ∘ fun c => if c = '~' then '-' else c) = isComponentLetter := by
    funext c
    by_cases htilde : c = '~' <;> simp [htilde, isComponentLetter]
  have hkeep : ∀ c ∈ t, (isComponentLetter c && !Text.isWhite c) = isComponentLetter c := by
    intro c _
    cases hc : isComponentLetter c with
    | false => rfl
    | true => rcases isComponentLetter_iff.1 hc with rfl | rfl | rfl | rfl <;> rfl
  rw [Text.componentLetters, normalise, List.filter_map, List.filter_filter, hsame,
    List.filter_congr hkeep]
  refine (List.map_congr_left fun c hc => if_neg ?_).trans (List.map_id _)
  rintro rfl
  exact absurd (List.mem_filter.1 hc).2 (by decide)

namespace IsPart

variable {α : Type} {zero a : α} {Reads : Text → α → Prop}

/-- A part is read as its value where an empty one is read as zero. -/
theorem ite_eq_ok_iff {ε : Type} {part : Text} {result : Except ε α} (hnil : ¬ Reads [] a)
    (hresult : result = .ok a ↔ Reads part a) :
    (if part = [] then .ok zero else result) = .ok a ↔ IsPart zero Reads (some part) a := by
  constructor
  · intro h
    split at h
    · rename_i hpart
      rw [hpart, ← Except.ok.inj h]
      exact .empty
    · exact .literal (hresult.1 h)
  · intro h
    cases h with
    | empty => exact if_pos rfl
    | literal hreads =>
      rw [if_neg, hresult.2 hreads]
      rintro rfl
      exact hnil hreads

/-- A missing part has the value of an empty one. -/
theorem getD_iff {part : Option Text} (hnil : ¬ Reads [] a) :
    IsPart zero Reads (some (part.getD [])) a ↔ IsPart zero Reads part a := by
  cases part with
  | some part => exact Iff.rfl
  | none =>
    constructor
    · intro h
      cases h with
      | empty => exact .absent
      | literal hreads => exact absurd hreads hnil
    · intro h
      cases h
      exact .empty

end IsPart

end Literal

/-! ### Components -/

namespace Components

theorem readRational_nil_ne_ok (r : Rat) : ¬ Rational.readRational [] = .ok r := by
  intro h
  contradiction

/-- A component is read as its value. -/
theorem readOne_eq_ok_iff {part : Text} {r : Rat} :
    readOne part = .ok r ↔ IsComponent (some part) r :=
  Literal.IsPart.ite_eq_ok_iff (readRational_nil_ne_ok r) Iff.rfl

/-- A missing component has the value of an empty one. -/
theorem isComponent_getD {part : Option Text} {r : Rat} :
    IsComponent (some (part.getD [])) r ↔ IsComponent part r :=
  Literal.IsPart.getD_iff (readRational_nil_ne_ok r)

/-- There are no letters in a component. -/
theorem IsComponent.not_letter {part : Option Text} {r : Rat} (h : IsComponent part r) {c : Char}
    (hc : c ∈ part.getD []) : isComponentLetter c = false := by
  cases h with
  | absent => exact absurd hc List.not_mem_nil
  | empty => exact absurd hc List.not_mem_nil
  | literal hread =>
    rw [Bool.eq_false_iff]
    intro hletter
    have hcases := isComponentLetter_iff.1 hletter
    have hnormal : ¬ Text.isWhite c = true ∧ c ≠ '~' := by
      rcases hcases with rfl | rfl | rfl | rfl <;> decide
    rcases mem_of_readRational hread (Literal.mem_normalise hc hnormal.1 hnormal.2) with
      hdigit | rfl | rfl | rfl | rfl
    · rcases hcases with rfl | rfl | rfl | rfl <;> exact absurd hdigit (by decide)
    all_goals exact absurd hletter (by decide)

theorem not_letter_of_forall₂ {parts : List (Option Text)} {values : List Rat}
    (h : List.Forall₂ IsComponent parts values) :
    ∀ part ∈ parts, ∀ c ∈ part.getD [], isComponentLetter c = false := by
  induction h with
  | nil => exact fun _ hmem => absurd hmem List.not_mem_nil
  | cons hpart _ ih => exact List.forall_mem_cons.2 ⟨fun _ => hpart.not_letter, ih⟩

/-- Parts that are read one by one. -/
theorem forall₂_of_mapM {parts : List Text} {values : List Rat} (h : parts.mapM readOne = .ok values) :
    List.Forall₂ (fun part value => readOne part = .ok value) parts values := by
  induction parts generalizing values with
  | nil =>
    obtain rfl : [] = values := Except.ok.inj h
    exact .nil
  | cons part parts ih =>
    rw [List.mapM_cons] at h
    cases hpart : readOne part with
    | error fault =>
      rw [hpart] at h
      contradiction
    | ok value =>
      cases hparts : parts.mapM readOne with
      | error fault =>
        rw [hpart, hparts] at h
        contradiction
      | ok rest =>
        rw [hpart, hparts] at h
        obtain rfl : value :: rest = values := Except.ok.inj h
        exact .cons hpart (ih hparts)

/-- The components of a cut text are read exactly if they are components of the grammar. -/
theorem mapM_readOne_eq_ok_iff {first : Text} {parts : List (Option Text)} {values : List Rat} :
    (first :: parts.map (·.getD [])).mapM readOne = .ok values ↔
      List.Forall₂ IsComponent (some first :: parts) values := by
  have hforall : List.Forall₂ (fun part value => readOne part = .ok value)
      (first :: parts.map (·.getD [])) values ↔
        List.Forall₂ IsComponent (some first :: parts) values := by
    simp only [readOne_eq_ok_iff, List.forall₂_cons_left_iff, List.forall₂_map_left_iff,
      isComponent_getD]
  rw [← hforall]
  exact ⟨forall₂_of_mapM, mapM_readOne⟩

/-- Letters that can separate components. -/
structure AreLetters (letters : List Char) : Prop where
  letter : ∀ c ∈ letters, isComponentLetter c = true
  nodup : letters.Nodup

/-- A text that is cut at its letters is read part by part. -/
theorem read_eq_ok_iff_of_cut {letters : List Char} {ring t first : Text} {parts : List (Option Text)}
    {values : List Rat}
    (hcut : Literal.components letters (Literal.normalise t) = first :: parts.map (·.getD [])) :
    read ring letters t = .ok values ↔ ¬ (first = [] ∧ ∀ part ∈ parts, part.getD [] = []) ∧
      List.Forall₂ IsComponent (some first :: parts) values := by
  unfold read
  dsimp only
  rw [hcut]
  split
  · rename_i hall
    exact iff_of_false (by simp) fun h => h.1 (by simpa using hall)
  · rename_i hall
    rw [and_iff_right (by simpa using hall), ← mapM_readOne_eq_ok_iff]
    cases (first :: parts.map (·.getD [])).mapM readOne <;> simp [Except.mapError]

/-- Components are read exactly from a first one and marked ones behind it that are not all empty. -/
theorem read_eq_ok_iff {letters : List Char} (hletters : AreLetters letters) {ring t : Text}
    {values : List Rat} : read ring letters t = .ok values ↔
      ∃ first parts, parts.length = letters.length ∧
        Literal.normalise t = first ++ Literal.joined letters parts ∧
        ¬ (first = [] ∧ ∀ part ∈ parts, part.getD [] = []) ∧
        List.Forall₂ IsComponent (some first :: parts) values := by
  constructor
  · intro h
    obtain ⟨first, parts, hlength, ht, hcut⟩ := Literal.exists_joined letters (Literal.normalise t)
    exact ⟨first, parts, hlength, ht, (read_eq_ok_iff_of_cut hcut).1 h⟩
  · rintro ⟨first, parts, hlength, ht, hne, hvalues⟩
    have hnone : ∀ c ∈ letters, ∀ part ∈ some first :: parts, c ∉ part.getD [] := by
      intro c hc part hpart hmem
      have := not_letter_of_forall₂ hvalues part hpart c hmem
      rw [hletters.letter c hc] at this
      contradiction
    have hcut : Literal.components letters (Literal.normalise t) = first :: parts.map (·.getD []) := by
      rw [ht]
      exact Literal.components_joined hletters.nodup hlength
        (fun c hc => hnone c hc (some first) List.mem_cons_self)
        (fun c hc part hpart => hnone c hc part (List.mem_cons_of_mem _ hpart))
    exact (read_eq_ok_iff_of_cut hcut).2 ⟨hne, hvalues⟩

/-- The letters of components that are read are marks, in their order. -/
theorem componentLetters_sublist_of_joined {letters : List Char} {first : Text}
    {parts : List (Option Text)} {values : List Rat}
    (hvalues : List.Forall₂ IsComponent (some first :: parts) values) :
    (first ++ Literal.joined letters parts).componentLetters.Sublist letters := by
  have hnone := not_letter_of_forall₂ hvalues
  have hfirst : first.filter isComponentLetter = [] := by
    rw [List.filter_eq_nil_iff]
    intro c hc
    simp [hnone (some first) List.mem_cons_self c hc]
  rw [Text.componentLetters, List.filter_append, hfirst, List.nil_append]
  exact Literal.filter_joined_sublist fun part hpart => hnone part (List.mem_cons_of_mem _ hpart)

/-- A result of components that are read. -/
theorem map_read_eq_ok_iff {α : Type} {letters : List Char} (hletters : AreLetters letters)
    {ring t : Text} {f : List Rat → α} {a : α} : (read ring letters t).map f = .ok a ↔
      ∃ first parts values, parts.length = letters.length ∧
        Literal.normalise t = first ++ Literal.joined letters parts ∧
        ¬ (first = [] ∧ ∀ part ∈ parts, part.getD [] = []) ∧
        List.Forall₂ IsComponent (some first :: parts) values ∧ f values = a := by
  constructor
  · intro h
    cases hread : read ring letters t with
    | error refusal =>
      rw [hread] at h
      contradiction
    | ok values =>
      rw [hread] at h
      obtain ⟨first, parts, hlength, ht, hne, hvalues⟩ := (read_eq_ok_iff hletters).1 hread
      exact ⟨first, parts, values, hlength, ht, hne, hvalues, Except.ok.inj h⟩
  · rintro ⟨first, parts, values, hlength, ht, hne, hvalues, rfl⟩
    rw [(read_eq_ok_iff hletters).2 ⟨first, parts, hlength, ht, hne, hvalues⟩]
    rfl

end Components

/-! ### Complex numbers and quaternions -/

open Components (AreLetters map_read_eq_ok_iff componentLetters_sublist_of_joined)

namespace Gaussian

theorem areLetters : AreLetters ['i'] := ⟨by simp [isComponentLetter_iff], by decide⟩

/-- Complex literals have the letter `i` at most once. -/
theorem IsLiteral.componentLetters {t : Text} {a : Gaussian} (h : IsLiteral t a) :
    t.componentLetters.Sublist ['i'] := by
  obtain ⟨-, hre, him⟩ := h
  rw [← Literal.joined_singleton]
  exact componentLetters_sublist_of_joined (.cons hre (.cons him .nil))

/-- The complex literals of the grammar are those that are read. -/
theorem read_eq_ok_iff {t : Text} {a : Gaussian} :
    read t = .ok a ↔ IsLiteral (Literal.normalise t) a := by
  rw [read, map_read_eq_ok_iff areLetters]
  generalize Literal.normalise t = s
  constructor
  · rintro ⟨re, parts, values, hlength, rfl, hne, hvalues, rfl⟩
    obtain ⟨im, rfl⟩ := List.length_eq_one_iff.1 hlength
    simp only [List.forall₂_cons_left_iff, List.forall₂_nil_left_iff] at hvalues
    obtain ⟨_, _, hre, ⟨_, _, him, rfl, rfl⟩, rfl⟩ := hvalues
    rw [Literal.joined_singleton]
    exact .components (by simpa using hne) hre him
  · rintro ⟨hne, hre, him⟩
    exact ⟨_, [_], [a.re, a.im], rfl, by rw [Literal.joined_singleton], by simpa using hne,
      .cons hre (.cons him .nil), rfl⟩

end Gaussian

namespace Quaternion

theorem areLetters : AreLetters ['i', 'j', 'k'] :=
  ⟨by simp [isComponentLetter_iff], by decide⟩

/-- Quaternion literals have the letters `i`, `j` and `k` in this order, each at most once. -/
theorem IsLiteral.componentLetters {t : Text} {q : Quaternion} (h : IsLiteral t q) :
    t.componentLetters.Sublist ['i', 'j', 'k'] := by
  obtain ⟨-, hre, hi, hj, hk⟩ := h
  rw [← Literal.joined_three]
  exact componentLetters_sublist_of_joined (.cons hre (.cons hi (.cons hj (.cons hk .nil))))

/-- The quaternion literals of the grammar are those that are read. -/
theorem readFor_eq_ok_iff {ring t : Text} {q : Quaternion} :
    readFor ring t = .ok q ↔ IsLiteral (Literal.normalise t) q := by
  rw [readFor, map_read_eq_ok_iff areLetters]
  generalize Literal.normalise t = s
  constructor
  · rintro ⟨re, parts, values, hlength, rfl, hne, hvalues, rfl⟩
    obtain ⟨i, j, k, rfl⟩ := List.length_eq_three.1 hlength
    simp only [List.forall₂_cons_left_iff, List.forall₂_nil_left_iff] at hvalues
    obtain ⟨_, _, hre, ⟨_, _, hi, ⟨_, _, hj, ⟨_, _, hk, rfl, rfl⟩, rfl⟩, rfl⟩, rfl⟩ := hvalues
    rw [Literal.joined_three]
    exact .components (by simpa using hne) hre hi hj hk
  · rintro ⟨hne, hre, hi, hj, hk⟩
    exact ⟨_, [_, _, _], [q.re, q.i, q.j, q.k], rfl, (Literal.joined_three ..).symm, by simpa using hne,
      .cons hre (.cons hi (.cons hj (.cons hk .nil))), rfl⟩

theorem not_isLiteral_nil (q : Quaternion) : ¬ IsLiteral [] q := by
  intro h
  have hread : readFor [] [] = .ok q := readFor_eq_ok_iff.2 h
  contradiction

end Quaternion

/-! ### Octonions -/

namespace Octonion

/-- A half is read as its value. -/
theorem readHalf_eq_ok_iff {part : Text} {q : Quaternion} (hpart : Literal.normalise part = part) :
    readHalf part = .ok q ↔ IsHalf (some part) q := by
  have hread : Quaternion.readFor display part = .ok q ↔ Quaternion.IsLiteral part q := by
    rw [Quaternion.readFor_eq_ok_iff, hpart]
  exact Literal.IsPart.ite_eq_ok_iff (Quaternion.not_isLiteral_nil q) hread

/-- A missing half has the value of an empty one. -/
theorem isHalf_getD {part : Option Text} {q : Quaternion} :
    IsHalf (some (part.getD [])) q ↔ IsHalf part q :=
  Literal.IsPart.getD_iff (Quaternion.not_isLiteral_nil q)

/-- The letters of a half are those of a quaternion. -/
theorem IsHalf.componentLetters {part : Option Text} {q : Quaternion} (h : IsHalf part q) :
    (part.getD []).componentLetters.Sublist ['i', 'j', 'k'] := by
  cases h with
  | absent => exact List.nil_sublist _
  | empty => exact List.nil_sublist _
  | literal hliteral => exact hliteral.componentLetters

/-- There is no `o` in a half. -/
theorem IsHalf.not_mem {part : Option Text} {q : Quaternion} (h : IsHalf part q) :
    'o' ∉ part.getD [] := by
  intro hmem
  have hletter : 'o' ∈ (part.getD []).componentLetters := List.mem_filter.2 ⟨hmem, rfl⟩
  exact absurd (h.componentLetters.subset hletter) (by decide)

/-- Octonion literals have the letters of one or two quaternions in their order. -/
theorem IsLiteral.componentLetters {t : Text} {x : Octonion} (h : IsLiteral t x) :
    LettersInOrder t.componentLetters := by
  obtain @⟨left, right, _, -, hleft, hright⟩ := h
  rw [Text.componentLetters, List.filter_append]
  cases right with
  | none =>
    rw [marked, List.filter_nil, List.append_nil]
    exact .inl hleft.componentLetters
  | some part => exact .inr ⟨_, _, rfl, hleft.componentLetters, hright.componentLetters⟩

/-- A literal that is cut into two halves is read half by half. -/
theorem read_eq_ok_iff_of_cut {t left : Text} {right : Option Text} {x : Octonion}
    (ht : Literal.normalise t = left ++ marked 'o' right)
    (hcut : Literal.components ['o'] (Literal.normalise t) = [left, right.getD []]) :
    read t = .ok x ↔ ¬ (left = [] ∧ right.getD [] = []) ∧ IsHalf (some left) x.left ∧
      IsHalf right x.right := by
  have hleft : Literal.normalise left = left := by
    apply Literal.normalise_eq_self_of_subset
    rw [ht]
    exact List.subset_append_left ..
  have hright : Literal.normalise (right.getD []) = right.getD [] := by
    apply Literal.normalise_eq_self_of_subset
    cases right with
    | none => exact List.nil_subset _
    | some part =>
      rw [ht]
      exact List.subset_append_of_subset_right left (List.subset_cons_self 'o' part)
  rw [Literal.components_singleton] at hcut
  injection hcut with hfirst hrest
  injection hrest with hsecond
  unfold read
  dsimp only
  rw [hfirst, hsecond, ← readHalf_eq_ok_iff hleft, ← isHalf_getD, ← readHalf_eq_ok_iff hright]
  split
  · rename_i hempty
    exact iff_of_false (by simp) fun h => h.1 hempty
  · rename_i hempty
    rw [and_iff_right hempty]
    cases hreadLeft : readHalf left with
    | error refusal => simp [bind, Except.bind]
    | ok leftValue =>
      cases hreadRight : readHalf (right.getD []) with
      | error refusal => simp [bind, Except.bind]
      | ok rightValue =>
        obtain ⟨xLeft, xRight⟩ := x
        simp [bind, Except.bind, pure, Except.pure]

/-- The octonion literals of the grammar are those that are read. -/
theorem read_eq_ok_iff {t : Text} {x : Octonion} :
    read t = .ok x ↔ IsLiteral (Literal.normalise t) x := by
  constructor
  · intro h
    obtain ⟨left, parts, hlength, ht, hcut⟩ := Literal.exists_joined ['o'] (Literal.normalise t)
    obtain ⟨right, rfl⟩ := List.length_eq_one_iff.1 hlength
    rw [Literal.joined_singleton] at ht
    obtain ⟨hne, hleft, hright⟩ := (read_eq_ok_iff_of_cut ht hcut).1 h
    rw [ht]
    exact .halves hne hleft hright
  · generalize hs : Literal.normalise t = s
    rintro @⟨left, right, _, hne, hleft, hright⟩
    have hcut : Literal.components ['o'] (Literal.normalise t) = [left, right.getD []] := by
      rw [hs, ← Literal.joined_singleton]
      exact Literal.components_joined (by decide) rfl (by simpa using hleft.not_mem)
        (by simpa using hright.not_mem)
    exact (read_eq_ok_iff_of_cut hs hcut).2 ⟨hne, hleft, hright⟩

end Octonion

/-! ### Acceptance and refusal -/

theorem exists_error_of_not {ε α : Type} {result : Except ε α} {p : Prop} (h : ∀ a, result = .ok a → p)
    (hp : ¬ p) : ∃ e, result = .error e := by
  cases result with
  | error e => exact ⟨e, rfl⟩
  | ok a => exact absurd (h a rfl) hp

/-- Texts are read as complex numbers, quaternions and octonions exactly if they are literals of the
grammar with that value. Where letters are repeated or out of order, the text is refused. -/
theorem hypercomplex_literals_are_grammatical (t : Text) :
    ((∀ a, Gaussian.arithmetic.read t = .ok a ↔ Gaussian.IsLiteral (Literal.normalise t) a) ∧
      (∀ q, Quaternion.arithmetic.read t = .ok q ↔ Quaternion.IsLiteral (Literal.normalise t) q) ∧
      ∀ x, Octonion.arithmetic.read t = .ok x ↔ Octonion.IsLiteral (Literal.normalise t) x) ∧
    (¬ t.componentLetters.Sublist ['i'] → ∃ refusal, Gaussian.arithmetic.read t = .error refusal) ∧
    (¬ t.componentLetters.Sublist ['i', 'j', 'k'] →
      ∃ refusal, Quaternion.arithmetic.read t = .error refusal) ∧
    (¬ Octonion.LettersInOrder t.componentLetters →
      ∃ refusal, Octonion.arithmetic.read t = .error refusal) := by
  refine ⟨⟨fun a => Gaussian.read_eq_ok_iff, fun q => Quaternion.readFor_eq_ok_iff,
    fun x => Octonion.read_eq_ok_iff⟩, ?_⟩
  rw [← Literal.componentLetters_normalise t]
  refine ⟨exists_error_of_not fun a ha => ?_, exists_error_of_not fun q hq => ?_,
    exists_error_of_not fun x hx => ?_⟩
  · exact (Gaussian.read_eq_ok_iff.1 ha).componentLetters
  · exact (Quaternion.readFor_eq_ok_iff.1 hq).componentLetters
  · exact (Octonion.read_eq_ok_iff.1 hx).componentLetters

/-- A `k` need not follow a `j`, but a `j` in front of an `i` is refused. -/
theorem halves_are_read_and_swapped_components_refused :
    let halves : Text := " ~1/2 o 3k.5".toList
    let swapped : Text := "2 j3i".toList
    (Octonion.arithmetic.read halves = .ok ⟨⟨-1 / 2, 0, 0, 0⟩, ⟨3, 0, 0, 1 / 2⟩⟩ ∧
      Octonion.IsLiteral (Literal.normalise halves) ⟨⟨-1 / 2, 0, 0, 0⟩, ⟨3, 0, 0, 1 / 2⟩⟩) ∧
    (¬ swapped.componentLetters.Sublist ['i'] ∧ ¬ swapped.componentLetters.Sublist ['i', 'j', 'k'] ∧
      ¬ Octonion.LettersInOrder swapped.componentLetters) ∧
    (∃ refusal, Gaussian.arithmetic.read swapped = .error refusal) ∧
    (∃ refusal, Quaternion.arithmetic.read swapped = .error refusal) ∧
    ∃ refusal, Octonion.arithmetic.read swapped = .error refusal := by
  intro halves swapped
  have hread : Octonion.arithmetic.read halves = .ok ⟨⟨-1 / 2, 0, 0, 0⟩, ⟨3, 0, 0, 1 / 2⟩⟩ := by
    decide +kernel
  have himaginary : ¬ swapped.componentLetters.Sublist ['i'] := by decide
  have hquaternion : ¬ swapped.componentLetters.Sublist ['i', 'j', 'k'] := by decide
  have hoctonion : ¬ Octonion.LettersInOrder swapped.componentLetters := by
    rintro (horder | ⟨left, right, hcut, -⟩)
    · exact hquaternion horder
    · have hmem : 'o' ∈ swapped.componentLetters := by simp [hcut]
      exact absurd hmem (by decide)
  obtain ⟨⟨-, -, hliteral⟩, -⟩ := hypercomplex_literals_are_grammatical halves
  obtain ⟨-, hcomplex, hquat, hoct⟩ := hypercomplex_literals_are_grammatical swapped
  exact ⟨⟨hread, (hliteral _).1 hread⟩, ⟨himaginary, hquaternion, hoctonion⟩, hcomplex himaginary,
    hquat hquaternion, hoct hoctonion⟩

end PolynomialText
