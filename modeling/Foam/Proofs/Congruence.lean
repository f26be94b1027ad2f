import Foam.Proofs.Arena.Walks
import Foam.Proofs.Codec.Encodable
import Foam.Proofs.SExpr.Text

/-!
# Equality is a congruence

Two trees are equal exactly if they unfold to the same form, tags and payloads in the same places, so
equality is an equivalence. What the other walks find is a function of the form as well: the node
count, the hash, the text and the bytes, or the error in place of them. Therefore equal trees agree
in all of these, in whatever arenas they stand, under whatever ids, with shared nodes or without.

A tree may be absent here, as a child may. Then it has the null id and unfolds to no form.
-/

namespace Foam

/-- The id of a tree, which is null if there is none. -/
def Tree.rootId (t : Option (Tree NodeId)) : NodeId := t.elim .null Tree.label

namespace Arena

open Foam.Tree

variable {a b c : Arena} {t u w : Option (Tree NodeId)}

/-- The walks over what `x` and `y` stand for find the same, with whatever function strings and
bignums are hashed. -/
structure SameReadings (a : Arena) (x : NodeId) (b : Arena) (y : NodeId) : Prop where
  nodeCount : ∃ n, a.nodeCount x = .ok n ∧ b.nodeCount y = .ok n
  hash : ∀ h : Hasher, ∃ sum, a.hash h x = .ok sum ∧ b.hash h y = .ok sum
  text : ∃ s, a.render x = .ok s ∧ b.render y = .ok s
  bytes : Codec.encode a x = Codec.encode b y

/-! ## What is found is a function of the form -/

theorem nodeCount_rootId (ht : ∀ s ∈ t, s.In a) :
    a.nodeCount (rootId t) = .ok ((t.map form).elim 0 size) := by
  cases t with
  | none => exact nodeCount_null a
  | some s =>
      rw [Option.map_some, Option.elim_some, size_form]
      exact nodeCount_eq (ht s rfl)

theorem hash_rootId (h : Hasher) (ht : ∀ s ∈ t, s.In a) :
    a.hash h (rootId t) = .ok ((t.map form).elim 0 (Tree.hash h)) := by
  cases t with
  | none => exact hash_null h a
  | some s => exact hash_eq h (ht s rfl)

theorem render_rootId (ht : ∀ s ∈ t, s.In a) :
    a.render (rootId t) = .ok ((t.map form).elim "()" fun f => String.ofList f.text) := by
  cases t with
  | none => exact render_null a
  | some s => exact render_eq (ht s rfl)

theorem encode_rootId (ht : ∀ s ∈ t, s.In a) : Codec.encode a (rootId t) =
    (t.map form).elim (throw (.nullChild .nil 0)) fun f => f.narrowed.encode .word := by
  cases t with
  | none => exact Codec.encode_null a
  | some s => exact encode_eq (ht s rfl)

/-- Encoding gives bytes or an error, if everything in the tree can be counted in four bytes. -/
theorem encode_answers (ha : a.WellFormed) (ht : ∀ s ∈ t, s.In a) (hshort : ∀ s ∈ t, s.Short) :
    ∃ r, (Codec.encode a (rootId t)).run = .ok r := by
  cases t with
  | none => exact ⟨_, Codec.encode_null a⟩
  | some s =>
      have hs : s.In a := ht s rfl
      have hcode : Codec.encode a (rootId (some s)) = s.form.narrowed.encode .word := encode_eq hs
      rcases encode_succeedsIff (hs.fits ha) (hshort s rfl) none with ⟨-, bytes, h⟩ | ⟨-, e, h⟩
      · exact ⟨.ok bytes, hcode.trans h⟩
      · exact ⟨.error e, hcode.trans h⟩

theorem equal_rootId (ha : a.WellFormed) (hb : b.WellFormed) (ht : ∀ s ∈ t, s.In a)
    (hu : ∀ s ∈ u, s.In b) :
    ∃ r, a.equal (rootId t) b (rootId u) = .ok r ∧ (r = true ↔ t.map form = u.map form) := by
  have hpos : 0 < pairBound a b := Nat.mul_pos (Nat.succ_pos _) (Nat.succ_pos _)
  cases t with
  | none =>
      refine ⟨_, equalFrom_null hpos (.inl rfl), ?_⟩
      cases u with
      | none => exact iff_of_true rfl rfl
      | some s =>
          have hs : s.label.isNull = false := (hu s rfl).label_not_null
          simp [rootId, hs]
  | some s =>
      have hs : s.In a := ht s rfl
      cases u with
      | none =>
          refine ⟨_, equalFrom_null hpos (.inr rfl), ?_⟩
          simp [rootId, hs.label_not_null]
      | some r =>
          refine ⟨_, equal_eq ha hb hs (hu r rfl), ?_⟩
          rw [equal_false_iff, Option.map_some, Option.map_some, Option.some.injEq]

theorem sameReadings_of_form (ht : ∀ s ∈ t, s.In a) (hu : ∀ s ∈ u, s.In b)
    (h : t.map form = u.map form) : SameReadings a (rootId t) b (rootId u) := by
  constructor
  · exact ⟨_, nodeCount_rootId ht, by rw [nodeCount_rootId hu, h]⟩
  · exact fun hasher => ⟨_, hash_rootId hasher ht, by rw [hash_rootId hasher hu, h]⟩
  · exact ⟨_, render_rootId ht, by rw [render_rootId hu, h]⟩
  · rw [encode_rootId ht, encode_rootId hu, h]

/-! ## The congruence -/

/-- Equality is decided for any two trees, absent ones among them, and holds exactly if they have the
same form. It is reflexive, symmetric and transitive, and what the walks find over equal trees is the
same; encoding ends with the same bytes or in the same error. -/
theorem equal_congruence (ha : a.WellFormed) (hb : b.WellFormed) (hc : c.WellFormed)
    (ht : ∀ s ∈ t, s.In a) (hu : ∀ s ∈ u, s.In b) (hw : ∀ s ∈ w, s.In c) :
    (∃ r, a.equal (rootId t) b (rootId u) = .ok r ∧ (r = true ↔ t.map form = u.map form)) ∧
      a.equal (rootId t) a (rootId t) = .ok true ∧
      (a.equal (rootId t) b (rootId u) = .ok true → b.equal (rootId u) a (rootId t) = .ok true) ∧
      (a.equal (rootId t) b (rootId u) = .ok true → b.equal (rootId u) c (rootId w) = .ok true →
        a.equal (rootId t) c (rootId w) = .ok true) ∧
      (a.equal (rootId t) b (rootId u) = .ok true → SameReadings a (rootId t) b (rootId u)) ∧
      ((∀ s ∈ t, s.Short) → ∃ r, (Codec.encode a (rootId t)).run = .ok r) := by
  have hiff : ∀ {a b : Arena} {t u : Option (Tree NodeId)}, a.WellFormed → b.WellFormed →
      (∀ s ∈ t, s.In a) → (∀ s ∈ u, s.In b) →
      (a.equal (rootId t) b (rootId u) = .ok true ↔ t.map form = u.map form) := by
    intro a b t u ha hb ht hu
    obtain ⟨r, hr, hform⟩ := equal_rootId ha hb ht hu
    rw [hr, Except.ok.injEq, hform]
  refine ⟨equal_rootId ha hb ht hu, (hiff ha ha ht ht).mpr rfl, ?symm, ?trans, ?readings,
    encode_answers ha ht⟩
  case symm =>
    intro h
    exact (hiff hb ha hu ht).mpr ((hiff ha hb ht hu).mp h).symm
  case trans =>
    intro h h'
    exact (hiff ha hc ht hw).mpr (((hiff ha hb ht hu).mp h).trans ((hiff hb hc hu hw).mp h'))
  case readings =>
    intro h
    exact sameReadings_of_form ht hu ((hiff ha hb ht hu).mp h)

/-- A sequence of one wide literal twice, and one of two such literals under other ids and with
notes. -/
theorem equal_congruence_of_shared :
    let a : Arena := .ofRows [some (.bare .sint [.int 1099511627776]),
      some (.bare .seq [.code ⟨0⟩, .code .null, .code ⟨0⟩])] []
    let b : Arena := .ofRows [none, some (.bare .seq [.code ⟨3⟩, .code .null, .code ⟨2⟩]),
      some ⟨.sint, [.int 1099511627776], ⟨4, 9⟩, some 7, none⟩,
      some ⟨.sint, [.int 1099511627776], ⟨1, 2⟩, none, some 5⟩] [⟨0⟩]
    let literal : NodeId → Tree NodeId := fun id => .node id .sint [.leaf (.int 1099511627776)]
    let t : Tree NodeId :=
      .node ⟨1⟩ .seq [.child (literal ⟨0⟩), .leaf (.code .null), .child (literal ⟨0⟩)]
    let u : Tree NodeId :=
      .node ⟨1⟩ .seq [.child (literal ⟨3⟩), .leaf (.code .null), .child (literal ⟨2⟩)]
    a.WellFormed ∧ b.WellFormed ∧ t.In a ∧ u.In b ∧ t.Short ∧
      a.equal ⟨1⟩ b ⟨1⟩ = .ok true ∧ b.equal ⟨1⟩ a ⟨1⟩ = .ok true ∧
      SameReadings a ⟨1⟩ b ⟨1⟩ ∧ ∃ r, (Codec.encode a ⟨1⟩).run = .ok r := by
  intro a b literal t u
  have ha : a.WellFormed := by decide
  have hb : b.WellFormed := by decide
  have ht : t.In a := by decide
  have hu : u.In b := by decide
  have hshort : t.Short := by decide
  obtain ⟨⟨r, hr, hiff⟩, -, hsymm, -, hreadings, hanswers⟩ :=
    equal_congruence (t := some t) (u := some u) (w := some t) ha hb ha
      (by simpa using ht) (by simpa using hu) (by simpa using ht)
  obtain rfl : r = true := hiff.mpr rfl
  exact ⟨ha, hb, ht, hu, hshort, hr, hsymm hr, hreadings hr, hanswers (by simpa using hshort)⟩

end Arena

end Foam
