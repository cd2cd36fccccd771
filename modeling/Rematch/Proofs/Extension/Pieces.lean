import Rematch.Proofs.Extension.Denotation

/-!
The encoding of a pattern, piece by piece. Every piece takes at least one byte, so that the length
of the rest is always enough fuel.
-/

namespace Rematch.Encoding

open List

/-- Replaces the extensions in the rest of a pattern, of which the place is known. -/
def encodeRest (place : Place) (input : Bytes) : Except EncodingError Bytes :=
  encodeFrom input.length place input

variable {p : Place} {w : Bytes} {n : Nat}

theorem encodeFrom_cons (b : UInt8) (r : Bytes) :
    encodeFrom (n + 1) p (b :: r) = (piece p (b :: r)).bind fun f =>
      (encodeFrom n f.place ((b :: r).drop f.width)).map (f.bytes ++ ·) := by
  rw [encodeFrom]
  · cases piece p (b :: r) <;> rfl
  · simp

theorem encodeFrom_eq (enough : w.length ≤ n) : encodeFrom n p w = encodeRest p w := by
  induction n using Nat.strongRecOn generalizing p w with
  | ind fu ih =>
    cases w with
    | nil => cases fu <;> rfl
    | cons b r =>
      cases fu with
      | zero => simp at enough
      | succ fu =>
        rw [encodeRest, length_cons, encodeFrom_cons, encodeFrom_cons]
        cases got : piece p (b :: r) with
        | error error => rfl
        | ok f =>
          have pos := (piece_takes (by simp) got).positive
          have shorter : ((b :: r).drop f.width).length ≤ r.length := by
            rw [length_drop, length_cons]
            omega
          rw [length_cons] at enough
          dsimp only [Except.bind]
          rw [ih fu (Nat.lt_succ_self _) (by omega)]
          rcases Nat.lt_or_ge r.length (fu + 1) with less | eq
          · rw [ih r.length less shorter]
          · omega

theorem encodeRest_eq (ne : w ≠ []) : encodeRest p w = (piece p w).bind fun f =>
      (encodeRest f.place (w.drop f.width)).map (f.bytes ++ ·) := by
  obtain ⟨b, r, rfl⟩ := exists_cons_of_ne_nil ne
  rw [encodeRest, length_cons, encodeFrom_cons]
  cases got : piece p (b :: r) with
  | error error => rfl
  | ok f =>
    have pos := (piece_takes (by simp) got).positive
    have shorter : ((b :: r).drop f.width).length ≤ r.length := by
      rw [length_drop, length_cons]
      omega
    dsimp only [Except.bind]
    rw [encodeFrom_eq shorter]

theorem encodeRest_of_piece {f : Piece} (ne : w ≠ []) (got : piece p w = .ok f) : encodeRest p w =
      (encodeRest f.place (w.drop f.width)).map (f.bytes ++ ·) := by
  rw [encodeRest_eq ne, got]
  rfl

theorem encode_eq_ok {pat encoded : Bytes} (enc : encode pat = .ok encoded) :
    Codec.hasReserved pat = false ∧ encodeRest .outside pat = .ok encoded := by
  unfold encode at enc
  split at enc
  · simp at enc
  · next unreserved => exact ⟨by simpa using unreserved, enc⟩

theorem map_append_map (res : Except EncodingError Bytes) (f bs : Bytes) :
    (res.map (bs ++ ·)).map (f ++ ·) = res.map ((f ++ bs) ++ ·) := by
  cases res with
  | error => rfl
  | ok v => simp [Except.map]

theorem piece_plain {b : UInt8} (plain : b ≠ 0x5C ∧ b ≠ 0x5B ∧ b ≠ 0x5D) (r : Bytes) :
    piece p (b :: r) = .ok ⟨[b], 1, p⟩ := by
  obtain ⟨noEscape, noOpening, noClosing⟩ := plain
  unfold piece
  split
  · next eq => exact absurd (cons.inj eq).1 noEscape
  · next eq => exact absurd (cons.inj eq).1 noOpening
  · next eq => exact absurd (cons.inj eq).1 noClosing
  · rfl

theorem encodeRest_plain {f : Bytes} (plain : ∀ b ∈ f, b ≠ 0x5C ∧ b ≠ 0x5B ∧ b ≠ 0x5D) :
    encodeRest p (f ++ w) = (encodeRest p w).map (f ++ ·) := by
  induction f with
  | nil =>
    rw [nil_append]
    cases encodeRest p w <;> rfl
  | cons b r ih =>
    rw [cons_append, encodeRest_of_piece (by simp) (piece_plain (plain b (.head _)) _)]
    change (encodeRest p (r ++ w)).map ([b] ++ ·) = _
    rw [ih fun b mem => plain b (.tail _ mem), map_append_map]
    rfl

end Rematch.Encoding
