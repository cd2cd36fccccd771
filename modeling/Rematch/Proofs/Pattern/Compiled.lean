import Rematch.Pattern.Compiled
import Rematch.Proofs.Extension.Sets

/-!
What is known of a pattern that has an automaton. Its expression holds no reserved code point more
often than the encoding inserted it, so that every code point that can be executed as an extension
means something; and its backreferences name groups.
-/

namespace Rematch

open List Codec

variable {enc : Bytes} {e : Expr}

theorem getElem?_reservedTally (cs : List Nat) {i : Nat} (lt : i < 4096) :
    (reservedTally cs)[i]? = some (cs.countP fun c => c - reservedLo == i) := by
  have counted (tally : Array Nat) :
      (cs.foldl (fun tally c => tally.modify (c - reservedLo) (· + 1)) tally)[i]? =
        tally[i]?.map (· + cs.countP fun c => c - reservedLo == i) := by
    induction cs generalizing tally with
    | nil => simp
    | cons c r ih =>
      rw [foldl_cons, ih, Array.getElem?_modify, countP_cons]
      by_cases here : c - reservedLo = i
      · simp [here, Option.map_map, Function.comp_def, Nat.add_assoc, Nat.add_comm 1]
      · simp [here]
  rw [reservedTally, counted, Array.getElem?_replicate]
  have size : reservedHi + 1 - reservedLo = 4096 := rfl
  simp [size, lt]

theorem size_reservedTally (cs : List Nat) : (reservedTally cs).size = 4096 := by
  have kept (tally : Array Nat) :
      (cs.foldl (fun tally c => tally.modify (c - reservedLo) (· + 1)) tally).size =
        tally.size := by
    induction cs generalizing tally with
    | nil => rfl
    | cons c r ih => rw [foldl_cons, ih, Array.size_modify]
  rw [reservedTally, kept, Array.size_replicate]
  rfl

theorem surplusCode?_eq_none_iff : surplusCode? e enc = none ↔ ∀ i < 4096,
      e.reservedCodes.countP (fun c => c - reservedLo == i) ≤
        ((Utf8.codes enc).filter isReserved).countP (fun c => c - reservedLo == i) := by
  unfold surplusCode?
  split
  · next empty => simp [empty]
  · dsimp only
    rw [Option.map_eq_none_iff, find?_eq_none, size_reservedTally]
    simp only [mem_range]
    refine forall_congr' fun i => forall_congr' fun lt => ?_
    rw [Array.getD_eq_getD_getElem?, Array.getD_eq_getD_getElem?,
      getElem?_reservedTally _ lt, getElem?_reservedTally _ lt]
    simp

theorem mem_codes_of_surplusCode? {c : Nat} (acc : surplusCode? e enc = none)
    (mem : c ∈ e.reservedCodes) (res : isReserved c = true) : c ∈ Utf8.codes enc := by
  have bounds := isReserved_iff.mp res
  have lower : reservedLo = 0xF0000 := rfl
  have counts := surplusCode?_eq_none_iff.mp acc (c - reservedLo) (by omega)
  have once : 0 < e.reservedCodes.countP fun j =>
      j - reservedLo == c - reservedLo :=
    countP_pos_iff.mpr ⟨c, mem, by simp⟩
  obtain ⟨j, got, eq⟩ := countP_pos_iff.mp (Nat.lt_of_lt_of_le once counts)
  obtain ⟨inserted, res'⟩ := mem_filter.mp got
  have bounds' := isReserved_iff.mp res'
  rw [beq_iff_eq] at eq
  obtain rfl : j = c := by omega
  exact inserted

theorem Overlay.arg_lt_of_missingGroup? {overlay : Overlay} {gs : Nat}
    (complete : overlay.missingGroup? gs = none) {pc : Nat} {es : List Extension}
    (got : overlay.find? pc = some es) {ext : Extension} (mem : ext ∈ es)
    (reference : ext.kind = .backreference) : ext.arg < gs := by
  obtain ⟨f, r, rfl, -⟩ := lookup_eq_some_iff.mp got
  have none := findSome?_eq_none_iff.mp complete ((pc : Int), es) (by simp)
  rw [Option.map_eq_none_iff, find?_eq_none] at none
  have small := none ext mem
  simpa [reference] using small

namespace CompiledPattern

variable {enc pat : Bytes} {e : Expr}

structure Made (pattern encoded : Bytes) (expr : Expr) (compiled : CompiledPattern) : Prop where
  encode_eq : Encoding.encode pattern = .ok encoded
  parse_eq : Expr.parse encoded = .ok expr
  balanced : surplusCode? expr encoded = none
  lower_eq : expr.simplify.compile.lower = .ok compiled.automaton
  overlay_eq : compiled.overlay = Recovery.overlay compiled.automaton
  names_eq : compiled.names = expr.simplify.groupNames
  complete : compiled.overlay.missingGroup? compiled.names.length = none

theorem exists_made {compiled : CompiledPattern} (got : compile pat = .ok compiled) :
    ∃ enc e, Made pat enc e compiled := by
  unfold compile at got
  split at got
  · simp at got
  next enc encode_eq =>
  split at got
  · simp at got
  next e parse_eq =>
  split at got
  · simp at got
  next balanced =>
  unfold ofExpr at got
  dsimp only at got
  split at got
  · simp at got
  next A lower_eq =>
  split at got
  · simp at got
  next complete =>
  cases got
  exact ⟨enc, e, encode_eq, parse_eq, balanced, lower_eq, rfl, rfl, complete⟩

section

variable (encode_eq : Encoding.encode pat = .ok enc) (parse_eq : Expr.parse enc = .ok e)

include encode_eq parse_eq

theorem compile_eq (balanced : surplusCode? e enc = none) : compile pat = ofExpr e := by
  simp [compile, encode_eq, parse_eq, balanced]

theorem exists_compile (inserted : e.reservedCodes.Sublist ((Utf8.codes enc).filter isReserved))
    (compiles : (ofExpr e).toOption.isSome = true) : ∃ compiled, compile pat = .ok compiled := by
  have balanced : surplusCode? e enc = none :=
    surplusCode?_eq_none_iff.mpr fun _ _ => inserted.countP_le
  rw [compile_eq encode_eq parse_eq balanced]
  cases res : ofExpr e with
  | error error => simp [res, Except.toOption] at compiles
  | ok compiled => exact ⟨compiled, rfl⟩

end

namespace Made

variable {pat enc : Bytes} {e : Expr} {compiled : CompiledPattern} (made : Made pat enc e compiled)

include made

theorem meaningful (ok : Utf8.valid pat = true) {c : Nat}
    (mem : c ∈ e.reservedCodes) (res : isReserved c = true) : Codec.Meaningful c :=
  Encoding.meaningful_of_encode ok made.encode_eq
    (mem_codes_of_surplusCode? made.balanced mem res) res

theorem lowered (wf : e.simplify.compile.WellFormed) :
    compiled.analyze = .ok compiled.toGraph.summary ∧ compiled.toGraph.Recovered ∧
      compiled.automaton.start = e.simplify.compile.start ∧
      ∀ pc sp, e.simplify.compile.steps[pc]? = some sp →
        Lowering.Lowered compiled.automaton.insts e.simplify.compile.steps.size pc sp := by
  obtain ⟨I, lower_eq, -, acc, lowered, -⟩ := wf.lower_eq
  have eq := Except.ok.inj (made.lower_eq.symm.trans lower_eq)
  rw [← eq] at acc
  obtain ⟨validated, recovered⟩ := Graph.Recovered.of_validate acc
  rw [← made.overlay_eq] at validated recovered
  refine ⟨Graph.analyze_of_validate validated, recovered, ?_, ?_⟩
  · rw [eq]
  · rw [eq]
    exact lowered

theorem arg_bounds (recovered : compiled.toGraph.Recovered) {pc : Nat} {es : List Extension}
    (got : compiled.toGraph.extensionsAt? pc = some es) {ext : Extension} (mem : ext ∈ es)
    (reference : ext.kind = .backreference) :
    (0 < ext.arg ∧ ext.arg < 256) ∧ ext.arg < compiled.names.length := by
  refine ⟨?_, Overlay.arg_lt_of_missingGroup? made.complete got mem reference⟩
  have lt : pc < compiled.automaton.insts.size := by
    have rng := (recovered.valid.extensions pc es got).1
    exact Graph.lt_of_op_ne_fail (by simp [rng])
  have here := Array.getElem?_eq_getElem lt
  rw [recovered.extensionsAt?_eq here] at got
  rcases Recovery.extensionsAt_cases recovered.whole here with ⟨plain, -⟩ | ⟨es', res, enc⟩
  · simp [plain, Except.toOption] at got
  · obtain rfl : es' = es := by simpa [res, Except.toOption] using got
    obtain ⟨means, small⟩ := (enc.meant recovered.whole ext mem).1
    rw [reference] at means
    exact ⟨of_decide_eq_true means, small⟩

end Made

end CompiledPattern

end Rematch
