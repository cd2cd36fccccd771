import Rematch.Proofs.Extension.Pieces

/-!
Which code points an encoded pattern holds. What the encoding replaces consists of ASCII characters,
so that all other code points stay whole; what it inserts are the code points of extensions that
mean something. Hence a pattern consists of parts that are kept and of escapes, and the reserved
code points of an encoded pattern are those of its escapes.
-/

namespace Rematch

open List ExtensionKind

namespace Codec

variable {k : ExtensionKind} {arg c : Nat}

/-- A code point stands for an extension that means something. -/
def Meaningful (code : Nat) : Prop :=
  ∃ kind arg, decode? code = some (kind, arg) ∧ validArg kind arg = true

theorem isReserved_iff : isReserved c = true ↔ 0xF0000 ≤ c ∧ c ≤ 0xF0FFF := by
  rw [isReserved, Bool.and_eq_true, decide_eq_true_eq, decide_eq_true_eq]
  rfl

theorem reservedLo_or {bs : Nat} (small : bs < 4096) : reservedLo ||| bs = 0xF0000 + bs :=
  (Nat.two_pow_add_eq_or_of_lt (Nat.lt_of_lt_of_le small (by decide : 4096 ≤ 2 ^ 16)) 15).symm

theorem encode_eq (known : k.isKnown = true) (small : arg < 256) :
    encode k arg = 0xF0000 + (256 * k.code + arg) := by
  have number : k.code ≤ 2 := by cases k <;> simp_all [code, isKnown]
  have low : k.code <<< 8 ||| arg = 256 * k.code + arg := by
    rw [Nat.shiftLeft_eq, Nat.mul_comm]
    exact (Nat.two_pow_add_eq_or_of_lt small k.code).symm
  rw [encode, Nat.or_assoc, low, reservedLo_or (by omega)]

theorem decode?_encode (known : k.isKnown = true) (small : arg < 256) :
    decode? (encode k arg) = some (k, arg) := by
  have number : k.code ≤ 2 := by cases k <;> simp_all [code, isKnown]
  have kind_eq : ofCode k.code = k := by cases k <;> simp_all [code, isKnown, ofCode]
  have high : (0xF0000 + (256 * k.code + arg)) / 256 % 16 = k.code := by omega
  have low : (0xF0000 + (256 * k.code + arg)) % 256 = arg := by omega
  rw [encode_eq known small, decode?, if_pos (isReserved_iff.mpr (by omega))]
  simp [high, low, kind_eq, known]

theorem ofCode_code (n : Nat) : (ofCode n).code = n := by
  unfold ofCode
  split <;> rfl

theorem eq_encode_of_decode? (dec : decode? c = some (k, arg)) :
    c = encode k arg ∧ arg < 256 ∧ isReserved c = true := by
  unfold decode? at dec
  split at dec
  · next res =>
    have bounds := isReserved_iff.mp res
    dsimp only at dec
    split at dec
    · next known =>
      cases dec
      have small : c % 256 < 256 := Nat.mod_lt _ (by decide)
      refine ⟨?_, small, res⟩
      rw [encode_eq known small, ofCode_code]
      omega
    · simp at dec
  · simp at dec

theorem Meaningful.isReserved (meaningful : Meaningful c) : isReserved c = true := by
  obtain ⟨k, arg, dec, -⟩ := meaningful
  exact (eq_encode_of_decode? dec).2.2

end Codec

namespace Encoding

variable {bs f w r t res : Bytes} {condition : Nat → Prop} {p : Place}
  {k : ExtensionKind} {arg : Nat}

/-- A byte string is the form of a code point of an extension. -/
def Inserts (bytes : Bytes) : Prop :=
  ∃ code, Codec.Meaningful code ∧ bytes = Utf8.encode code

theorem Denotes.meaningful (denotes : Denotes t k arg) :
    k.isKnown = true ∧ arg < 256 ∧ Codec.validArg k arg = true := by
  have category {nm : Bytes} {n : Nat} (named : Names nm n) (c : UInt8)
      (inverted : Bool) : (propertyKind c inverted).isKnown = true ∧ n < 256 ∧
        Codec.validArg (propertyKind c inverted) n = true := by
    have le := named.checked.1
    have small : n < 256 := Nat.lt_of_lt_of_le le (by decide)
    unfold propertyKind
    split
    · exact ⟨rfl, small, decide_eq_true le⟩
    · exact ⟨rfl, small, decide_eq_true le⟩
  cases denotes with
  | single _ named => exact category named _ _
  | braced _ named => exact category named _ _
  | inverted _ named => exact category named _ _
  | @reference b ds least greatest _ small =>
    refine ⟨rfl, Nat.lt_succ_of_le small, decide_eq_true ?_⟩
    have above : 10 * 0 + (Digits.decimalValue? b).getD 0 ≤ Digits.decimalNumber (b :: ds) :=
      le_numberFrom _ ds
    rw [decimalValue?_digit (by omega) greatest, Option.getD_some] at above
    omega

theorem Denotes.inserts (denotes : Denotes t k arg) : Inserts (encoded k arg) := by
  obtain ⟨known, small, ok⟩ := denotes.meaningful
  exact ⟨_, ⟨k, arg, Codec.decode?_encode known small, ok⟩, rfl⟩

/-- The code points of a byte string are scalar values and satisfy a condition. -/
def Holds (condition : Nat → Prop) (bytes : Bytes) : Prop :=
  ∃ codes : List Nat, bytes = codes.flatMap Utf8.encode ∧
    ∀ code ∈ codes, Utf8.isScalar code = true ∧ condition code

theorem Holds.append {others : Bytes} (fst : Holds condition bs) (snd : Holds condition others) :
    Holds condition (bs ++ others) := by
  obtain ⟨cs, rfl, all⟩ := fst
  obtain ⟨cs', rfl, all'⟩ := snd
  refine ⟨cs ++ cs', by simp, fun c mem => ?_⟩
  exact (mem_append.mp mem).elim (all c) (all' c)

/-- An escape stands between whole code points. -/
theorem Holds.cut (denotes : Denotes t k arg) (holds : Holds condition (f ++ (t ++ r))) :
    Holds condition f ∧ Holds condition r := by
  obtain ⟨cs, parts, all⟩ := holds
  obtain ⟨m, rfl, plain⟩ := denotes.plain
  obtain ⟨u, v, rfl, feq, req⟩ := Utf8.split_ascii
    (fun c mem => (all c mem).1) (show (0x5C : UInt8).toNat < 0x80 by decide) parts.symm
  obtain ⟨others, rfl, others_eq⟩ := Utf8.split_ascii_front (fun c mem => (all c (by simp [mem])).1)
    (fun b mem => (plain b mem).1.1) req.symm
  exact ⟨⟨u, feq, fun c mem => all c (by simp [mem])⟩,
    others, others_eq, fun c mem => all c (by simp [mem])⟩

theorem Holds.flatMap {α : Type} {l : List α} {view : α → Bytes}
    (all : ∀ item ∈ l, Holds condition (view item)) : Holds condition (l.flatMap view) := by
  induction l with
  | nil => exact ⟨[], rfl, by simp⟩
  | cons item l ih => exact (all item (.head _)).append (ih fun o mem => all o (.tail _ mem))

theorem Inserts.holds (inserts : Inserts bs) (meaningful : ∀ c, Codec.Meaningful c → condition c) :
    Holds condition bs := by
  obtain ⟨c, known, rfl⟩ := inserts
  have res := Codec.isReserved_iff.mp known.isReserved
  refine ⟨[c], by simp, fun j mem => ?_⟩
  obtain rfl := mem_singleton.mp mem
  exact ⟨Utf8.isScalar_iff.mpr (by omega), meaningful j known⟩

/-- A part of a pattern: text that is kept, or an escape that stands for an extension. -/
inductive Part where
  | kept (bytes : Bytes)
  | escape (text : Bytes) (kind : ExtensionKind) (arg : Nat)

namespace Part

def source : Part → Bytes
  | .kept bytes => bytes
  | .escape text _ _ => text

def target : Part → Bytes
  | .kept bytes => bytes
  | .escape _ kind arg => encoded kind arg

/-- What is kept consists of whole code points, and none of them is reserved. -/
def Faithful : Part → Prop
  | .kept bytes => Holds (fun code => Codec.isReserved code = false) bytes
  | .escape text kind arg => Denotes text kind arg

end Part

/-- The parts of the rest of a pattern, as the encoding reads them one after another. -/
inductive Scans : Place → List Part → Prop where
  | nil {place} : Scans place []
  | kept {place next} {front} {parts} (nonempty : front ≠ [])
      (found : piece place (front ++ parts.flatMap Part.source) = .ok ⟨front, front.length, next⟩)
      (rest : Scans next parts) : Scans place (.kept front :: parts)
  | escape {place text kind arg parts}
      (denotes : Denotes text kind arg) (allows : Allows place kind (parts.flatMap Part.source))
      (rest : Scans place parts) : Scans place (.escape text kind arg :: parts)

theorem exists_scans (enc : encodeRest p w = .ok res) : ∃ parts, Scans p parts ∧
    w = parts.flatMap Part.source ∧ res = parts.flatMap Part.target := by
  induction l : w.length using Nat.strongRecOn generalizing p w res with
  | ind len ih =>
    by_cases ne : w = []
    · subst ne
      exact ⟨[], .nil, rfl, (Except.ok.inj enc).symm⟩
    rw [encodeRest_eq ne] at enc
    cases got : piece p w with
    | error => simp [got, Except.bind] at enc
    | ok f =>
      rw [got] at enc
      obtain ⟨others, rest, rfl⟩ := exists_of_map_eq_ok enc
      have takes := piece_takes ne got
      obtain ⟨parts, scans, source_eq, rfl⟩ := ih (w.drop f.width).length (by
        have := takes.positive
        have := length_pos_iff.mpr ne
        rw [length_drop]
        omega) rest rfl
      cases takes with
      | kept pos le bytes_eq =>
        have input_eq : w = f.bytes ++ parts.flatMap Part.source := by
          rw [bytes_eq, ← source_eq, take_append_drop]
        have width_eq : f.width = f.bytes.length := by rw [bytes_eq, length_take_of_le le]
        refine ⟨.kept f.bytes :: parts, .kept ?_ ?_ scans, input_eq, rfl⟩
        · rintro empty
          rw [width_eq, empty] at pos
          simp at pos
        · rw [← input_eq, got, ← width_eq]
      | @replaced t v k arg denotes allows input_eq piece_eq =>
        subst piece_eq input_eq
        rw [drop_left] at source_eq
        subst source_eq
        exact ⟨.escape t k arg :: parts, .escape denotes allows scans, rfl, rfl⟩

/-- Kept text that is read in several pieces is put together. The text in front may end within a
code point. -/
theorem Scans.exists_faithful {parts : List Part} (scans : Scans p parts)
    (holds : Holds (fun c => Codec.isReserved c = false) (f ++ parts.flatMap Part.source)) :
    ∃ w : List Part, (∀ part ∈ w, part.Faithful) ∧ ∀ view : Part → Bytes,
      (∀ bs, view (.kept bs) = bs) → w.flatMap view = f ++ parts.flatMap view := by
  induction scans generalizing f with
  | nil => exact ⟨[.kept f], by simpa [Part.Faithful] using holds, fun view kept => by simp [kept]⟩
  | @kept _ _ bs parts _ _ _ ih =>
    obtain ⟨w, faithful, views⟩ := ih (show Holds _ ((f ++ bs) ++ _) by
      simpa [Part.source] using holds)
    exact ⟨w, faithful, fun view kept => by simp [views view kept, kept]⟩
  | @escape _ t k arg parts denotes _ _ ih =>
    obtain ⟨pre, after⟩ := Holds.cut denotes holds
    obtain ⟨w, faithful, views⟩ := ih (show Holds _ ([] ++ _) from after)
    refine ⟨.kept f :: .escape t k arg :: w, ?_, fun view kept => by simp [views view kept, kept]⟩
    simpa [Part.Faithful] using ⟨pre, denotes, faithful⟩

variable {pat enc : Bytes}

variable (ok : Utf8.valid pat = true) (encodes : encode pat = .ok enc)

include ok encodes

theorem holds_of_encode :
    Holds (fun c => Codec.isReserved c = false) pat := by
  obtain ⟨unreserved, -⟩ := encode_eq_ok encodes
  obtain ⟨pattern_eq, scalars⟩ := Utf8.eq_flatMap_of_valid ok
  refine ⟨Utf8.codes pat, pattern_eq, fun c mem => ⟨scalars c mem, ?_⟩⟩
  simpa using any_eq_false.mp unreserved c mem

theorem meaningful_of_encode {c : Nat} (mem : c ∈ Utf8.codes enc)
    (res : Codec.isReserved c = true) : Codec.Meaningful c := by
  obtain ⟨parts, scans, rfl, rfl⟩ := exists_scans (encode_eq_ok encodes).2
  obtain ⟨w, faithful, views⟩ := scans.exists_faithful
    (show Holds _ ([] ++ _) from holds_of_encode ok encodes)
  have target_eq : w.flatMap Part.target = parts.flatMap Part.target := views _ fun _ => rfl
  obtain ⟨cs, codes_eq, all⟩ : Holds (fun c => Codec.isReserved c = true → Codec.Meaningful c)
      (parts.flatMap Part.target) := by
    rw [← target_eq]
    refine Holds.flatMap fun part inWhole => ?_
    cases part with
    | kept bs =>
      obtain ⟨cs, codes_eq, all⟩ := faithful _ inWhole
      exact ⟨cs, codes_eq, fun c mem => ⟨(all c mem).1, by simp [(all c mem).2]⟩⟩
    | escape t k arg =>
      exact (faithful _ inWhole : Denotes t k arg).inserts.holds fun c known _ => known
  rw [codes_eq, Utf8.codes_flatMap fun j got => (all j got).1] at mem
  exact (all c mem).2 res

end Encoding

end Rematch
