import Foam.Proofs.Arena.Equal

/-!
# Equality up to encoding

Up to encoding a literal equals every expression that has its value, while two expressions are
compared node by node. The relation is reflexive and symmetric, and what it relates has one value.
It is not transitive: one literal equals two expressions that may differ. Of two trees that equal a
third, `opposed` lists the expressions that stand where only the third has a literal, and the two
trees are equal exactly if these are.
-/

namespace Foam

/-- The same payload, or children that are related. -/
inductive Field.Rel {τ σ : Type} (R : τ → σ → Prop) : Field τ → Field σ → Prop
  | leaf (s : Slot) : Rel R (.leaf s) (.leaf s)
  | child {t : τ} {u : σ} : R t u → Rel R (.child t) (.child u)

namespace Field.Rel

variable {τ σ : Type} {R S : τ → σ → Prop} {fs : List (Field τ)} {gs : List (Field σ)}

theorem forall₂_imp (h : List.Forall₂ (Rel R) fs gs)
    (hRS : ∀ t u, .child t ∈ fs → .child u ∈ gs → R t u → S t u) :
    List.Forall₂ (Rel S) fs gs := by
  induction h with
  | nil => exact .nil
  | @cons f g fs gs hfg _ ih =>
      refine .cons ?_ (ih fun t u ht hu => hRS t u (List.mem_cons_of_mem _ ht)
        (List.mem_cons_of_mem _ hu))
      cases hfg with
      | leaf s => exact .leaf s
      | child h => exact .child (hRS _ _ List.mem_cons_self List.mem_cons_self h)

theorem forall₂_flip (h : List.Forall₂ (Rel R) fs gs) :
    List.Forall₂ (Rel fun u t => R t u) gs fs := by
  induction h with
  | nil => exact .nil
  | cons hfg _ ih =>
      refine .cons ?_ ih
      cases hfg with
      | leaf s => exact .leaf s
      | child h => exact .child h

end Field.Rel

namespace Tree

/-! ## The comparison of two forms -/

/-- The forms are equal up to encoding. -/
abbrev Alike (t u : Form) : Prop := t.equal true u = true

theorem equalAll_iff {lax : Bool} {fs gs : List (Field Form)} : equalAll lax fs gs = true ↔
    List.Forall₂ (Field.Rel fun t u => t.equal lax u = true) fs gs := by
  constructor
  · intro h
    induction fs generalizing gs with
    | nil =>
        cases gs with
        | nil => exact .nil
        | cons g gs => simp [equalAll] at h
    | cons f fs ih =>
        cases gs with
        | nil => cases f <;> simp [equalAll] at h
        | cons g gs =>
            rcases f with s | t <;> rcases g with r | u
            · simp only [equalAll, Bool.and_eq_true, beq_iff_eq] at h
              obtain ⟨rfl, h⟩ := h
              exact .cons (.leaf s) (ih h)
            · simp [equalAll] at h
            · simp [equalAll] at h
            · simp only [equalAll, Bool.and_eq_true] at h
              exact .cons (.child h.1) (ih h.2)
  · intro h
    induction h with
    | nil => rfl
    | cons hfg _ ih =>
        cases hfg with
        | leaf s => simp [equalAll, ih]
        | child h => simp [equalAll, ih, h]

variable {t u w : Form} {l l' : Unit} {tag tag' : Tag} {fs gs hs : List (Field Form)}

/-- A literal on either side is compared by value. -/
theorem alike_iff_literal (h : t.tag = .sint ∨ u.tag = .sint) :
    t.Alike u ↔ ∃ v, t.literal? = some v ∧ u.literal? = some v := by
  obtain ⟨l, tag, fs⟩ := t
  obtain ⟨l', tag', gs⟩ := u
  have hsint : (true && (tag == .sint || tag' == .sint)) = true := by simpa [Tree.tag] using h
  rw [Alike, equal, if_pos hsint, Bool.and_eq_true, beq_iff_eq, Option.isSome_iff_exists]
  constructor
  · rintro ⟨⟨v, hv⟩, heq⟩
    exact ⟨v, hv, heq ▸ hv⟩
  · rintro ⟨v, hv, hw⟩
    exact ⟨⟨v, hv⟩, hv.trans hw.symm⟩

/-- Other nodes are compared by tag and fields. -/
theorem alike_node (h : tag ≠ .sint) (h' : tag' ≠ .sint) :
    (node l tag fs).Alike (node l' tag' gs) ↔
      tag = tag' ∧ List.Forall₂ (Field.Rel Alike) fs gs := by
  have hsint : ¬(true && (tag == .sint || tag' == .sint)) = true := by simp [h, h']
  rw [Alike, equal, if_neg hsint, Bool.and_eq_true, Bool.and_eq_true, beq_iff_eq, beq_iff_eq,
    equalAll_iff]
  constructor
  · rintro ⟨⟨htag, -⟩, hall⟩
    exact ⟨htag, hall⟩
  · rintro ⟨htag, hall⟩
    exact ⟨⟨htag, hall.length_eq⟩, hall⟩

theorem alike_refl (h : t.Fits) : t.Alike t := by
  induction t using induct with
  | node l tag fs ih =>
      by_cases htag : tag = .sint
      · subst htag
        obtain ⟨v, rfl⟩ := Fits.sint h
        exact (alike_iff_literal (.inl rfl)).mpr ⟨v, rfl, rfl⟩
      · obtain ⟨-, -, hbelow⟩ := obeys_node.mp h
        refine (alike_node htag htag).mpr ⟨rfl, List.forall₂_same.mpr fun f hf => ?_⟩
        cases f with
        | leaf s => exact .leaf s
        | child t => exact .child (ih t hf (hbelow t hf))

theorem Alike.symm (h : t.Alike u) : u.Alike t := by
  induction t using induct generalizing u with
  | node l tag fs ih =>
      obtain ⟨l', tag', gs⟩ := u
      by_cases hsint : (node l tag fs).tag = .sint ∨ (node l' tag' gs).tag = .sint
      · obtain ⟨v, hv, hw⟩ := (alike_iff_literal hsint).mp h
        exact (alike_iff_literal hsint.symm).mpr ⟨v, hw, hv⟩
      · obtain ⟨htag, htag'⟩ := not_or.mp hsint
        obtain ⟨heq, hall⟩ := (alike_node htag htag').mp h
        have hflip : List.Forall₂ (Field.Rel fun u t => t.Alike u) gs fs :=
          Field.Rel.forall₂_flip hall
        exact (alike_node htag' htag).mpr ⟨heq.symm, Field.Rel.forall₂_imp hflip
          fun u t _ ht htu => ih t ht htu⟩

/-! ## One value -/

theorem literals_congr
    (h : List.Forall₂ (Field.Rel fun t u => t.literal? = u.literal?) fs gs) :
    literals fs = literals gs := by
  induction h with
  | nil => rfl
  | cons hfg _ ih =>
      cases hfg with
      | leaf s => rw [literals, literals, ih]
      | child h => rw [literals, literals, h, ih]

/-- The value of a call depends on the values of its operands. -/
theorem literal?_congr (htag : tag ≠ .sint)
    (h : List.Forall₂ (Field.Rel fun t u => t.literal? = u.literal?) fs gs) :
    (node l tag fs).literal? = (node l' tag gs).literal? := by
  by_cases hbcall : tag = .bcall
  · subst hbcall
    cases h with
    | nil => rfl
    | cons hfg hargs =>
        cases hfg with
        | child h => rfl
        | leaf s =>
            cases s with
            | int op => rw [literal?, literal?, literals_congr hargs]
            | _ => rfl
  · rw [literal?_eq_none htag hbcall, literal?_eq_none htag hbcall]

theorem Alike.literal?_eq (h : t.Alike u) : t.literal? = u.literal? := by
  induction t using induct generalizing u with
  | node l tag fs ih =>
      obtain ⟨l', tag', gs⟩ := u
      by_cases hsint : (node l tag fs).tag = .sint ∨ (node l' tag' gs).tag = .sint
      · obtain ⟨v, hv, hw⟩ := (alike_iff_literal hsint).mp h
        rw [hv, hw]
      · obtain ⟨htag, htag'⟩ := not_or.mp hsint
        obtain ⟨rfl, hall⟩ := (alike_node htag htag').mp h
        exact literal?_congr htag (Field.Rel.forall₂_imp hall fun t u ht _ htu => ih t ht htu)

/-- A literal is alike whatever is alike to something that is alike to it. -/
theorem Alike.trans_literal (h : t.Alike u) (h' : u.Alike w)
    (hsint : t.tag = .sint ∨ w.tag = .sint) : t.Alike w := by
  refine (alike_iff_literal hsint).mpr ?_
  rcases hsint with hsint | hsint
  · obtain ⟨v, hv, hu⟩ := (alike_iff_literal (.inl hsint)).mp h
    exact ⟨v, hv, h'.literal?_eq ▸ hu⟩
  · obtain ⟨v, hu, hv⟩ := (alike_iff_literal (.inr hsint)).mp h'
    exact ⟨v, h.literal?_eq.trans hu, hv⟩

/-! ## Expressions for one literal -/

section

variable {α β γ : Type} {t : Tree α} {u : Tree β} {w : Tree γ} {p : Tree α × Tree γ}

mutual
/-- The subtrees of `t` and `w` that stand where `u` has a literal and they have none. -/
def opposed (t : Tree α) (u : Tree β) (w : Tree γ) : List (Tree α × Tree γ) :=
  match u with
  | node _ tag gs =>
    if t.tag = .sint ∨ w.tag = .sint then []
    else if tag = .sint then [(t, w)]
    else opposedAll t.fields gs w.fields
def opposedAll : List (Field (Tree α)) → List (Field (Tree β)) → List (Field (Tree γ)) →
    List (Tree α × Tree γ)
  | .child t :: fs, .child u :: gs, .child w :: hs => opposed t u w ++ opposedAll fs gs hs
  | _ :: fs, _ :: gs, _ :: hs => opposedAll fs gs hs
  | _, _, _ => []
end

@[simp] theorem tag_form (t : Tree α) : t.form.tag = t.tag := by
  cases t
  rw [form_node]
  rfl

@[simp] theorem fields_form (t : Tree α) : t.form.fields = t.fields.map (Field.map form) := by
  cases t
  rw [form_node]
  rfl

theorem mem_opposedAll {fs : List (Field (Tree α))} {gs : List (Field (Tree β))}
    {hs : List (Field (Tree γ))} (h : p ∈ opposedAll fs gs hs) :
    ∃ t u w, .child t ∈ fs ∧ .child u ∈ gs ∧ .child w ∈ hs ∧ p ∈ opposed t u w := by
  induction gs generalizing fs hs with
  | nil => cases fs <;> simp [opposedAll] at h
  | cons g gs ih =>
      rcases fs with - | ⟨f, fs⟩
      · simp [opposedAll] at h
      · rcases hs with - | ⟨x, hs⟩
        · simp [opposedAll] at h
        · have htail : p ∈ opposedAll fs gs hs → ∃ t u w, .child t ∈ f :: fs ∧
              .child u ∈ g :: gs ∧ .child w ∈ x :: hs ∧ p ∈ opposed t u w := by
            intro h
            obtain ⟨t, u, w, ht, hu, hw, h⟩ := ih h
            exact ⟨t, u, w, List.mem_cons_of_mem _ ht, List.mem_cons_of_mem _ hu,
              List.mem_cons_of_mem _ hw, h⟩
          rcases f with s | t <;> rcases g with s | u <;> rcases x with s | w
          case child.child.child =>
            rw [opposedAll, List.mem_append] at h
            rcases h with h | h
            · exact ⟨t, u, w, List.mem_cons_self, List.mem_cons_self, List.mem_cons_self, h⟩
            · exact htail h
          all_goals exact htail (by simpa [opposedAll] using h)

theorem opposedAll_form {fs : List (Field (Tree α))} {gs : List (Field (Tree β))}
    {hs : List (Field (Tree γ))} (ih : ∀ u, .child u ∈ gs → ∀ (t : Tree α) (w : Tree γ),
      opposed t.form u.form w.form = (opposed t u w).map (Prod.map form form)) :
    opposedAll (fs.map (Field.map form)) (gs.map (Field.map form)) (hs.map (Field.map form)) =
      (opposedAll fs gs hs).map (Prod.map form form) := by
  induction gs generalizing fs hs with
  | nil => cases fs <;> simp [opposedAll]
  | cons g gs ihgs =>
      have ihgs := fun fs hs => @ihgs fs hs fun u hu => ih u (List.mem_cons_of_mem _ hu)
      rcases fs with - | ⟨f, fs⟩
      · simp [opposedAll]
      · rcases hs with - | ⟨x, hs⟩
        · simp [opposedAll]
        · rcases f with s | t <;> rcases g with s | u <;> rcases x with s | w
          case child.child.child =>
            have hu := ih u List.mem_cons_self t w
            simp only [List.map_cons, Field.map, opposedAll, List.map_append, hu, ihgs]
          all_goals simpa only [List.map_cons, Field.map, opposedAll] using ihgs fs hs

theorem opposed_form (t : Tree α) (u : Tree β) (w : Tree γ) :
    opposed t.form u.form w.form = (opposed t u w).map (Prod.map form form) := by
  induction u generalizing t w with
  | node l tag gs ih =>
      have ht := tag_form t
      have hw := tag_form w
      rw [form_node, opposed, opposed, ht, hw]
      by_cases hsint : t.tag = .sint ∨ w.tag = .sint
      · rw [if_pos hsint, if_pos hsint, List.map_nil]
      · rw [if_neg hsint, if_neg hsint]
        by_cases htag : tag = .sint
        · rw [if_pos htag, if_pos htag, List.map_singleton, Prod.map]
        · rw [if_neg htag, if_neg htag, fields_form, fields_form,
            opposedAll_form fun u hu t w => ih u hu t w]

/-- What is opposed are subtrees of the two trees. -/
theorem opposed_every {P : Tree α → Prop} {Q : Tree γ → Prop} (ht : t.Every P) (hw : w.Every Q)
    (h : p ∈ opposed t u w) : p.1.Every P ∧ p.2.Every Q := by
  induction u generalizing t w with
  | node l tag gs ih =>
      rw [opposed] at h
      split_ifs at h
      · cases h
      · obtain rfl := List.mem_singleton.mp h
        exact ⟨ht, hw⟩
      · obtain ⟨t', u, w', ht', hu, hw', hp⟩ := mem_opposedAll h
        obtain ⟨_, _, fs⟩ := t
        obtain ⟨_, _, hs⟩ := w
        exact ih u hu ((every_node.mp ht).2 t' ht') ((every_node.mp hw).2 w' hw') hp

end

/-- Two lists of fields alike to a third are alike if what is opposed is. -/
theorem alike_fields_iff (hf : List.Forall₂ (Field.Rel Alike) fs gs)
    (hg : List.Forall₂ (Field.Rel Alike) gs hs)
    (ih : ∀ u, .child u ∈ gs → ∀ t w, t.Alike u → u.Alike w →
      (t.Alike w ↔ ∀ p ∈ opposed t u w, p.1.Alike p.2)) :
    List.Forall₂ (Field.Rel Alike) fs hs ↔ ∀ p ∈ opposedAll fs gs hs, p.1.Alike p.2 := by
  induction hf generalizing hs with
  | nil =>
      cases hg
      simp [opposedAll]
  | @cons f g fs gs hfg _ ihfs =>
      obtain ⟨x, hs, hgx, hgs, rfl⟩ := List.forall₂_cons_left_iff.mp hg
      have ihfs := ihfs hgs fun u hu => ih u (List.mem_cons_of_mem _ hu)
      cases hfg with
      | leaf s =>
          cases hgx
          rw [List.forall₂_cons, opposedAll, ihfs]
          · exact and_iff_right (.leaf s)
          · simp
      | @child t u htu =>
          cases hgx with
          | @child _ w huw =>
              have hhead := ih u List.mem_cons_self t w htu huw
              rw [List.forall₂_cons, opposedAll, ihfs, List.forall_mem_append, ← hhead]
              refine and_congr_left fun _ => ⟨?_, .child⟩
              rintro ⟨⟩
              assumption

/-- Two trees alike to a third are alike if what is opposed in them is. -/
theorem Alike.trans_iff (h : t.Alike u) (h' : u.Alike w) :
    t.Alike w ↔ ∀ p ∈ opposed t u w, p.1.Alike p.2 := by
  induction u using induct generalizing t w with
  | node l' tag' gs ih =>
      by_cases hsint : t.tag = .sint ∨ w.tag = .sint
      · rw [opposed, if_pos hsint]
        exact iff_of_true (h.trans_literal h' hsint) (by simp)
      · by_cases htag' : tag' = .sint
        · rw [opposed, if_neg hsint, if_pos htag']
          simp
        · obtain ⟨l, tag, fs⟩ := t
          obtain ⟨l'', tag'', hs⟩ := w
          obtain ⟨htag, htag''⟩ : tag ≠ .sint ∧ tag'' ≠ .sint := not_or.mp hsint
          obtain ⟨rfl, hf⟩ := (alike_node htag htag').mp h
          obtain ⟨rfl, hg⟩ := (alike_node htag' htag'').mp h'
          rw [opposed, if_neg hsint, if_neg htag', alike_node htag htag'']
          exact (and_iff_right rfl).trans (alike_fields_iff hf hg fun u hu t w => ih u hu)

end Tree

namespace Arena

open Foam.Tree

/-! ## The relation on trees of arenas -/

/-- Equality up to encoding is decided for any two trees; it is reflexive and symmetric. Two trees
that are equal to a third are equal if and only if the expressions are that they have in place of
its literals. -/
theorem equalUpToEncoding_laws {a b c : Arena} {t u w : Tree NodeId} (ha : a.WellFormed)
    (hb : b.WellFormed) (hc : c.WellFormed) (ht : t.In a) (hu : u.In b) (hw : w.In c) :
    a.equalUpToEncoding t.label a t.label = .ok true ∧
      (∃ r, a.equalUpToEncoding t.label b u.label = .ok r ∧
        b.equalUpToEncoding u.label a t.label = .ok r) ∧
      (a.equalUpToEncoding t.label b u.label = .ok true →
        b.equalUpToEncoding u.label c w.label = .ok true →
        (a.equalUpToEncoding t.label c w.label = .ok true ↔ ∀ p ∈ opposed t u w,
          a.equalUpToEncoding p.1.label c p.2.label = .ok true)) := by
  have hiff : ∀ {a b : Arena} {t u : Tree NodeId}, a.WellFormed → b.WellFormed → t.In a → u.In b →
      (a.equalUpToEncoding t.label b u.label = .ok true ↔ t.form.Alike u.form) := by
    intro a b t u ha hb ht hu
    rw [equalUpToEncoding_eq ha hb ht hu]
    simp
  refine ⟨?_, ⟨t.form.equal true u.form, equalUpToEncoding_eq ha hb ht hu, ?_⟩, ?_⟩
  · exact (hiff ha ha ht ht).mpr (alike_refl (t.obeys_form.mpr (ht.fits ha)))
  · have hsymm : u.form.equal true t.form = t.form.equal true u.form :=
      Bool.eq_iff_iff.mpr ⟨Alike.symm, Alike.symm⟩
    rw [equalUpToEncoding_eq hb ha hu ht, hsymm]
  · intro htu huw
    have htu := (hiff ha hb ht hu).mp htu
    have huw := (hiff hb hc hu hw).mp huw
    rw [hiff ha hc ht hw, htu.trans_iff huw, opposed_form, List.forall_mem_map]
    refine forall₂_congr fun p hp => ?_
    obtain ⟨hp₁, hp₂⟩ := opposed_every ht hw hp
    exact (hiff ha hc hp₁ hp₂).symm

/-- A negation and an `or` that both have the value of a literal. -/
theorem equalUpToEncoding_laws_of_negative :
    let a : Arena := .ofRows [some (.bare .sint [.int 5]), some (.bare .bcall [.int 97, .code ⟨0⟩]),
      some (.bare .seq [.code ⟨1⟩])] []
    let b : Arena := .ofRows [some (.bare .sint [.int (-5)]), some (.bare .seq [.code ⟨0⟩])] []
    let c : Arena := .ofRows [some (.bare .sint [.int (-5)]), some (.bare .sint [.int 0]),
      some (.bare .bcall [.int 119, .code ⟨0⟩, .code ⟨1⟩]), some (.bare .seq [.code ⟨2⟩])] []
    let negation : Tree NodeId :=
      .node ⟨1⟩ .bcall [.leaf (.int 97), .child (.node ⟨0⟩ .sint [.leaf (.int 5)])]
    let t : Tree NodeId := .node ⟨2⟩ .seq [.child negation]
    let u : Tree NodeId := .node ⟨1⟩ .seq [.child (.node ⟨0⟩ .sint [.leaf (.int (-5))])]
    let disjunction : Tree NodeId := .node ⟨2⟩ .bcall [.leaf (.int 119),
      .child (.node ⟨0⟩ .sint [.leaf (.int (-5))]), .child (.node ⟨1⟩ .sint [.leaf (.int 0)])]
    let w : Tree NodeId := .node ⟨3⟩ .seq [.child disjunction]
    a.WellFormed ∧ b.WellFormed ∧ c.WellFormed ∧ t.In a ∧ u.In b ∧ w.In c ∧
      opposed t u w = [(negation, disjunction)] ∧
      a.equalUpToEncoding t.label b u.label = .ok true ∧
      b.equalUpToEncoding u.label c w.label = .ok true ∧
      (a.equalUpToEncoding t.label c w.label = .ok true ↔
        a.equalUpToEncoding negation.label c disjunction.label = .ok true) := by
  intro a b c negation t u disjunction w
  have ha : a.WellFormed := by decide
  have hb : b.WellFormed := by decide
  have hc : c.WellFormed := by decide
  have ht : t.In a := by decide
  have hu : u.In b := by decide
  have hw : w.In c := by decide
  have hopposed : opposed t u w = [(negation, disjunction)] := by rfl
  have htu : a.equalUpToEncoding t.label b u.label = .ok true := by decide +kernel
  have huw : b.equalUpToEncoding u.label c w.label = .ok true := by decide +kernel
  have hiff := (equalUpToEncoding_laws ha hb hc ht hu hw).2.2 htu huw
  rw [hopposed, List.forall_mem_singleton] at hiff
  exact ⟨ha, hb, hc, ht, hu, hw, hopposed, htu, huw, hiff⟩

/-- Equality up to encoding is not transitive. -/
theorem equalUpToEncoding_not_trans : ¬ ∀ (a b c : Arena) (t u w : Tree NodeId), a.WellFormed →
    b.WellFormed → c.WellFormed → t.In a → u.In b → w.In c →
    a.equalUpToEncoding t.label b u.label = .ok true →
    b.equalUpToEncoding u.label c w.label = .ok true →
    a.equalUpToEncoding t.label c w.label = .ok true := by
  intro htrans
  let a : Arena := .ofRows [some (.bare .sint [.int 5]), some (.bare .bcall [.int 97, .code ⟨0⟩])] []
  let b : Arena := .ofRows [some (.bare .sint [.int (-5)])] []
  let c : Arena := .ofRows [some (.bare .sint [.int (-5)]), some (.bare .sint [.int 0]),
    some (.bare .bcall [.int 119, .code ⟨0⟩, .code ⟨1⟩])] []
  let t : Tree NodeId :=
    .node ⟨1⟩ .bcall [.leaf (.int 97), .child (.node ⟨0⟩ .sint [.leaf (.int 5)])]
  let u : Tree NodeId := .node ⟨0⟩ .sint [.leaf (.int (-5))]
  let w : Tree NodeId := .node ⟨2⟩ .bcall [.leaf (.int 119),
    .child (.node ⟨0⟩ .sint [.leaf (.int (-5))]), .child (.node ⟨1⟩ .sint [.leaf (.int 0)])]
  have htu : a.equalUpToEncoding t.label b u.label = .ok true := by decide +kernel
  have huw : b.equalUpToEncoding u.label c w.label = .ok true := by decide +kernel
  have htw : a.equalUpToEncoding t.label c w.label = .ok false := by decide +kernel
  have heq := htrans a b c t u w (by decide) (by decide) (by decide) (by decide) (by decide)
    (by decide) htu huw
  rw [htw] at heq
  cases heq

end Arena

end Foam
