import Foam.Codec.Decode
import Foam.Codec.Encode
import Mathlib.Control.Monad.Basic

/-!
# Running readers

A reader is applied to a buffer, and one that makes nodes also to an arena. `Consumes x P` says that
`x`, when it succeeds, leaves the bytes as they are and the cursor `k` bytes further on, and gives a
value `v` with `P v k`. The rules follow the ways readers are put together, so a reader's fact is
proved along its definition. An encoding is a computation without state, and what a successful one
has gone through is read off the other way round.
-/

namespace Foam.Codec

variable {α β : Type}

/-! ## One step of a run -/

theorem GetM.bind_apply (x : GetM α) (f : α → GetM β) (b : Buffer) :
    (x >>= f) b = match x b with
      | (.ok v, b') => f v b'
      | (.error e, b') => (.error e, b') := by
  show ExceptT.bindCont f (x b).1 (x b).2 = _
  rcases x b with ⟨r, b'⟩
  cases r <;> rfl

theorem GetM.bind_ok {x : GetM α} {f : α → GetM β} {b b' : Buffer} {v : α}
    (h : x b = (.ok v, b')) : (x >>= f) b = f v b' := by
  rw [bind_apply, h]

theorem GetM.bind_error {x : GetM α} {f : α → GetM β} {b b' : Buffer} {e : DecodeError}
    (h : x b = (.error e, b')) : (x >>= f) b = (.error e, b') := by
  rw [bind_apply, h]

theorem GetM.bind_eq_ok {x : GetM α} {f : α → GetM β} {b b' : Buffer} {w : β} :
    (x >>= f) b = (.ok w, b') ↔ ∃ v c, x b = (.ok v, c) ∧ f v c = (.ok w, b') := by
  rw [bind_apply]
  rcases x b with ⟨e | v, c⟩
  · constructor
    · rintro ⟨⟩
    · rintro ⟨v, c, ⟨⟩, -⟩
  · constructor
    · exact fun h => ⟨v, c, rfl, h⟩
    · rintro ⟨_, _, ⟨⟩, h⟩
      exact h

theorem GetM.bind_congr {x y : GetM α} {f g : α → GetM β} {b : Buffer} (h : x b = y b)
    (hfg : ∀ v c, y b = (.ok v, c) → f v c = g v c) : (x >>= f) b = (y >>= g) b := by
  rw [bind_apply, bind_apply, h]
  rcases hy : y b with ⟨e | v, c⟩
  · rfl
  · exact hfg v c hy

theorem GetM.get_apply (b : Buffer) : (get : GetM Buffer) b = (.ok b, b) := rfl

theorem DecodeM.bind_apply (x : DecodeM α) (f : α → DecodeM β) (b : Buffer) (a : Arena) :
    (x >>= f) b a = match x b a with
      | .error m => .error m
      | .ok ((.ok v, b'), a') => f v b' a'
      | .ok ((.error e, b'), a') => .ok ((.error e, b'), a') := by
  show (x b a >>= fun p => _) = _
  rcases x b a with m | ⟨⟨r, b'⟩, a'⟩
  · rfl
  · cases r <;> rfl

theorem DecodeM.bind_ok {x : DecodeM α} {f : α → DecodeM β} {b b' : Buffer} {a a' : Arena} {v : α}
    (h : x b a = .ok ((.ok v, b'), a')) : (x >>= f) b a = f v b' a' := by
  rw [bind_apply, h]

theorem DecodeM.bind_error {x : DecodeM α} {f : α → DecodeM β} {b b' : Buffer} {a a' : Arena}
    {e : DecodeError} (h : x b a = .ok ((.error e, b'), a')) :
    (x >>= f) b a = .ok ((.error e, b'), a') := by
  rw [bind_apply, h]

theorem DecodeM.tryCatch_apply (x : DecodeM α) (f : DecodeError → DecodeM α) (b : Buffer)
    (a : Arena) : tryCatch x f b a = match x b a with
      | .error m => .error m
      | .ok ((.ok v, b'), a') => .ok ((.ok v, b'), a')
      | .ok ((.error e, b'), a') => f e b' a' := by
  show (x b a >>= fun p => _) = _
  rcases x b a with m | ⟨⟨r, b'⟩, a'⟩
  · rfl
  · cases r <;> rfl

theorem DecodeM.lift_apply (x : ArenaM α) (b : Buffer) (a : Arena) :
    (x : DecodeM α) b a = (x a).map fun p => ((.ok p.1, b), p.2) := by
  show ((x a >>= fun p => _) >>= fun _ => _) = _
  rcases x a with m | ⟨v, a'⟩ <;> rfl

theorem reading_apply (x : GetM α) (b : Buffer) (a : Arena) : reading x b a = .ok (x b, a) := rfl

namespace EncodeM

variable {x : EncodeM α} {f : α → EncodeM β}

/-- So the bytes of a given tree can be checked by evaluation. -/
instance [DecidableEq α] : DecidableEq (EncodeM α) :=
  inferInstanceAs (DecidableEq (Except Misuse (Except EncodeError α)))

theorem pure_inj {v w : α} (h : (pure v : EncodeM α) = pure w) : v = w :=
  Except.ok.inj (Except.ok.inj h)

theorem throw_ne_pure {e : EncodeError} {v : α} : (throw e : EncodeM α) ≠ pure v := by
  intro h
  cases Except.ok.inj h

theorem bind_eq_pure {w : β} : (x >>= f) = pure w ↔ ∃ v, x = pure v ∧ f v = pure w := by
  constructor
  · intro h
    change (Except.bind x (ExceptT.bindCont f) : Checked _) = _ at h
    rcases x with m | e | v
    · cases h
    · cases Except.ok.inj h
    · exact ⟨v, rfl, h⟩
  · rintro ⟨v, rfl, h⟩
    exact h

theorem bind_of_eq {v : α} (h : x = pure v) : (x >>= f) = f v := by
  rw [h]
  rfl

end EncodeM

/-! ## What a reader consumes -/

theorem Buffer.remaining_add_pos (b : Buffer) : b.remaining + b.pos = b.size :=
  Nat.sub_add_cancel b.pos_le

/-- A success takes some number of bytes and relates it to the value. -/
def Consumes (x : GetM α) (P : α → Nat → Prop) : Prop :=
  ∀ b v b', x b = (.ok v, b') → b'.bytes = b.bytes ∧ ∃ k, b'.pos = b.pos + k ∧ P v k

namespace Consumes

variable {x : GetM α} {f : α → GetM β} {P P' : α → Nat → Prop} {Q : β → Nat → Prop}

theorem remaining (h : Consumes x P) {b b' : Buffer} {v : α} (hx : x b = (.ok v, b')) :
    ∃ k, b'.remaining + k = b.remaining ∧ P v k := by
  obtain ⟨hbytes, k, hpos, hP⟩ := h b v b' hx
  refine ⟨k, ?_, hP⟩
  have hle := b'.pos_le
  simp only [Buffer.remaining, Buffer.size, hbytes, hpos] at hle ⊢
  omega

theorem mono (h : Consumes x P) (hPP' : ∀ v k, P v k → P' v k) : Consumes x P' := by
  intro b v b' hx
  obtain ⟨hbytes, k, hpos, hP⟩ := h b v b' hx
  exact ⟨hbytes, k, hpos, hPP' v k hP⟩

theorem pure {v : α} (h : P v 0) : Consumes (pure v) P := by
  intro b w b' hx
  cases hx
  exact ⟨rfl, 0, rfl, h⟩

theorem throw (e : DecodeError) : Consumes (throw e) P := by
  intro b v b' hx
  cases hx

theorem bind (h : Consumes x P)
    (h' : ∀ v k, P v k → Consumes (f v) fun w n => Q w (k + n)) : Consumes (x >>= f) Q := by
  intro b w b'' hx
  obtain ⟨v, b', hv, hw⟩ := GetM.bind_eq_ok.mp hx
  obtain ⟨hbytes, k, hpos, hP⟩ := h b v b' hv
  obtain ⟨hbytes', n, hpos', hQ⟩ := h' v k hP b' w b'' hw
  exact ⟨hbytes'.trans hbytes, k + n, by omega, hQ⟩

theorem ite {c : Prop} [Decidable c] {y : GetM α} (h : c → Consumes x P)
    (h' : ¬c → Consumes y P) : Consumes (if c then x else y) P := by
  by_cases hc : c
  · rw [if_pos hc]
    exact h hc
  · rw [if_neg hc]
    exact h' hc

/-- A test that ends the reading if it finds something wrong. -/
theorem guarded {c : Prop} [Decidable c] {γ : Type} {e : DecodeError} {g : γ → GetM α}
    (h : ¬c → Consumes x P) :
    Consumes (if c then (MonadExcept.throw e : GetM γ) >>= g else x) P := by
  refine ite (fun _ => ?_) h
  intro b v b' hx
  cases hx

theorem get : Consumes get fun _ k => k = 0 := by
  intro b v b' hx
  cases hx
  exact ⟨rfl, 0, rfl, rfl⟩

theorem position : Consumes position fun _ k => k = 0 :=
  bind get fun _ _ hk => pure hk

/-- Every reading in turn takes what it takes. -/
theorem mapM_list {γ : Type} {g : γ → GetM α} (h : ∀ c, Consumes (g c) fun _ _ => True)
    (cs : List γ) : Consumes (cs.mapM g) fun _ _ => True := by
  induction cs with
  | nil => exact pure trivial
  | cons c cs ih =>
      rw [List.mapM_cons]
      exact bind (h c) fun _ _ _ => bind ih fun _ _ _ => pure trivial

end Consumes

theorem take_consumes (n : Nat) : Consumes (take n) fun bytes k => bytes.length = n ∧ k = n := by
  intro b v b' hx
  unfold take at hx
  rw [GetM.bind_apply] at hx
  change (if n ≤ b.remaining then _ else _ : GetM _) b = _ at hx
  split at hx
  · next hn =>
      cases hx
      have hsize : b.pos + n ≤ b.bytes.size := by
        have := b.remaining_add_pos
        simp only [Buffer.size] at this
        omega
      refine ⟨rfl, n, Nat.min_eq_left hsize, ?_, rfl⟩
      simp
      omega
  · cases hx

end Foam.Codec
