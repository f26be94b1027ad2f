import Foam.Proofs.Arena.Reach
import Foam.Proofs.Codec.Reader

/-!
# Decoding any bytes

Decoding never ends in misuse, whatever the bytes are. It fails and leaves every node as it was, or
it has made a tree of new nodes, no more than there were bytes, and every field in it is sound.
-/

namespace Foam.Codec

theorem decode_apply (b : Buffer) (a : Arena) :
    (decode.run.run b).run a = decodeFrom (b.remaining + 1) .word b a := rfl

theorem read_consumes : Consumes read fun t k => t.size ≤ k ∧ t.Sound :=
  Consumes.get.bind fun b k hk => (readFrom_consumes _ _).mono fun t n ht => ⟨by omega, ht.2⟩

theorem decode_mirrors {b : Buffer} {a : Arena} (hw : a.WellFormed)
    (hr : RoomFor Tree.size a b (read b)) : Mirrors a (read b) ((decode.run.run b).run a) := by
  rw [decode_apply]
  exact decodeFrom_mirrors _ _ b a hw hr

/-- Room for as many nodes as there are bytes is enough, whatever these are. -/
theorem roomFor_read {b : Buffer} {a : Arena} (hr : a.Room b.remaining) :
    RoomFor Tree.size a b (read b) := by
  rcases hx : read b with ⟨r, b'⟩
  cases r with
  | error e => exact hr
  | ok t =>
      obtain ⟨k, hrem, hsize, -⟩ := read_consumes.remaining hx
      change a.liveCount + b.remaining ≤ Arena.idLimit at hr
      show a.liveCount + t.size ≤ Arena.idLimit
      omega

/-- Decoding ends in an error, and every id has the node it had, or none. -/
def FailsClean (b : Buffer) (a : Arena) : Prop :=
  ∃ e b' a', (decode.run.run b).run a = .ok ((.error e, b'), a') ∧ ∀ x, a'.get? x = a.get? x

/-- Decoding gives a node. What is reached from there is a strict tree of new nodes without absent
children or ordinals out of their tables. There are as many as the arena has grown by, and no more
than bytes taken. -/
def MakesTree (b : Buffer) (a : Arena) : Prop :=
  ∃ id ids b' a', (decode.run.run b).run a = .ok ((.ok id, b'), a') ∧
    a'.StrictTree id ids ∧
    (∀ x ∈ ids, a.contains x = false ∧ a'.contains x = true) ∧
    (∀ x ∈ ids, ∃ n, a'.get? x = some n ∧ n.Complete ∧ n.InTable) ∧
    (∀ x, x ∉ ids → a'.get? x = a.get? x) ∧
    a'.liveCount = a.liveCount + ids.length ∧ b.pos + ids.length ≤ b'.pos

theorem decode_fails_clean_or_makes_tree (b : Buffer) (a : Arena) (hw : a.WellFormed)
    (hr : a.Room b.remaining) : FailsClean b a ∨ MakesTree b a := by
  have hm := decode_mirrors hw (roomFor_read hr)
  rcases hx : read b with ⟨r, b'⟩
  rw [hx] at hm
  cases r with
  | error e =>
      obtain ⟨a', ha', hres⟩ := hm
      exact .inl ⟨e, b', a', ha', hres.get?⟩
  | ok s =>
      obtain ⟨t, a', ha', hform, hgrows⟩ := hm
      obtain ⟨-, k, hpos, hsize, hsound⟩ := read_consumes b _ b' hx
      rw [← Tree.size_form, ← hform, Tree.size_form, ← Tree.length_labels] at hsize
      have ht : t.In a' := hgrows.placed t List.mem_cons_self
      have hlabels : [t].flatMap Tree.labels = t.labels := by simp
      have hsound' : t.Sound := t.obeys_form.mp (hform ▸ s.obeys_form.mpr hsound)
      refine .inr ⟨t.label, t.labels, b', a', ha', ht.strictTree ?_, ?_, ?_, ?_, ?_, by omega⟩
      · rw [← hlabels]
        exact hgrows.nodup
      · intro x hx
        constructor
        · exact hw.aligned.contains_of_fresh (hgrows.fresh x (by rwa [hlabels]))
        · exact hgrows.wellFormed.contains_iff.mpr (Tree.mem_labels_live ht hx).2
      · intro x hx
        exact ht.node_of_sound hsound' hx
      · intro x hx
        rw [← hlabels] at hx
        exact hgrows.kept x hx
      · rw [hgrows.liveCount, hlabels]

/-- A sequence of two statements, decoded beside a node and into a vacant row. -/
theorem decode_makes_tree_in_vacant_cell :
    let b := Buffer.ofList [fold .seq (.immediate 2), fold .nil .word, fold .nop .word]
    let a : Arena := .ofRows [some (.bare .nil []), none] [⟨1⟩]
    a.WellFormed ∧ a.Room b.remaining ∧ MakesTree b a := by
  intro b a
  have hw : a.WellFormed := by decide
  have hr : a.Room b.remaining := by decide
  refine ⟨hw, hr, (decode_fails_clean_or_makes_tree b a hw hr).resolve_left ?_⟩
  rintro ⟨e, b', a', h, -⟩
  have hok : ((decode.run.run b).run a).toOption.map (fun p => p.1.1.isOk) = some true := by
    decide +kernel
  rw [h] at hok
  cases hok

end Foam.Codec
