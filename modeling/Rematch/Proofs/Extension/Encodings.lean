import Rematch.Extension.Recovery
import Rematch.Proofs.Automaton.Edges
import Rematch.Proofs.Extension.Insertion
import Rematch.Proofs.Program.Shape

/-!
The extensions that an automaton encodes, as a relation with the number of instructions that are
visited to read them. Recovery finds what is encoded: on an automaton without exits to the outside
no walk is given up, and the overlay holds exactly the instructions that encode extensions, with all
of them in the order of priority.
-/

namespace Rematch

open List Automaton Codec
open Lowering (Sealed)

section Lists

variable {α β : Type} {l : List α} {fn : α → Option β}

theorem mapM_eq_some {rs : List β} : l.mapM fn = some rs ↔ l.map fn = rs.map some := by
  induction l generalizing rs with
  | nil => cases rs <;> simp
  | cons v r ih => cases rs <;> simp [Option.bind_eq_some_iff, ih, and_left_comm]

theorem exists_mapM (each : ∀ v ∈ l, ∃ res, fn v = some res) : ∃ rs, l.mapM fn = some rs := by
  induction l with
  | nil => exact ⟨[], rfl⟩
  | cons v r ih =>
    obtain ⟨res, got⟩ := each v (.head _)
    obtain ⟨rs, others⟩ := ih fun o mem => each o (.tail _ mem)
    exact ⟨res :: rs, by simp [got, others]⟩

variable {rs : List β} (got : l.mapM fn = some rs)

include got

theorem exists_of_mapM :
    ∀ v ∈ l, ∃ res ∈ rs, fn v = some res := by
  intro v mem
  have maps := mem_map_of_mem mem (f := fn)
  rw [mapM_eq_some.mp got] at maps
  simpa [eq_comm] using maps

theorem forall_of_mapM {holds : β → Prop} (each : ∀ v ∈ l, ∀ res, fn v = some res → holds res) :
    ∀ res ∈ rs, holds res := by
  intro res mem
  have maps : some res ∈ l.map fn := mapM_eq_some.mp got ▸ mem_map_of_mem mem
  obtain ⟨v, inList, got⟩ := mem_map.mp maps
  exact each v inList res got

end Lists

namespace Codec

/-- The extension that a code point stands for, leading to `out`. -/
def extension? (out : Int) (code : Nat) : Option Extension :=
  (decode? code).bind fun (kind, arg) => if validArg kind arg then some ⟨kind, arg, out⟩ else none

theorem extension?_of_meaningful {c : Nat} (meaningful : Meaningful c) (out : Int) :
    ∃ k arg, decode? c = some (k, arg) ∧ validArg k arg = true ∧
      extension? out c = some ⟨k, arg, out⟩ := by
  obtain ⟨k, arg, dec, means⟩ := meaningful
  exact ⟨k, arg, dec, means, by simp [extension?, dec, means]⟩

theorem of_extension? {out : Int} {c : Nat} {ext : Extension} (got : extension? out c = some ext) :
    c = encode ext.kind ext.arg ∧ (validArg ext.kind ext.arg = true ∧ ext.arg < 256) ∧
      ext.out = out := by
  obtain ⟨⟨k, arg⟩, dec, got⟩ := Option.bind_eq_some_iff.mp got
  dsimp only at got
  split at got
  · next means =>
    cases got
    obtain ⟨code_eq, small, -⟩ := eq_encode_of_decode? dec
    exact ⟨code_eq, ⟨means, small⟩, rfl⟩
  · simp at got

end Codec

namespace Recovery

variable {A : Automaton}
variable {x : Inst} {out pc : Int} {bs : Nat}

theorem inst?_natCast (A : Automaton) (pc : Nat) : A.inst? pc = A.insts[pc]? := by
  simp [inst?]

theorem exists_inst? (lt : 0 ≤ pc ∧ pc < A.insts.size) :
    ∃ x, A.inst? pc = some x ∧ A.insts[pc.toNat]? = some x := by
  have le : pc.toNat < A.insts.size := by omega
  have got := Array.getElem?_eq_getElem le
  exact ⟨_, by rw [inst?, if_pos lt.1, got], got⟩

theorem getElem?_of_inst? (got : A.inst? pc = some x) :
    ∃ n : Nat, pc = n ∧ A.insts[n]? = some x := by
  unfold inst? at got
  split at got
  · exact ⟨pc.toNat, by omega, got⟩
  · simp at got

theorem isByte_iff {b : UInt8} : isByte x b = true ↔
    x.op = .byteRange ∧ x.lo = b ∧ x.hi = b ∧ x.fold = false := by
  simp [isByte, and_assoc]

/-- A range of continuation bytes, taken as they are. -/
def Continues (inst : Inst) : Prop :=
  inst.op = .byteRange ∧ inst.fold = false ∧ continues inst.lo = true ∧ continues inst.hi = true

/-- What the alternatives from an instruction on spell, in the order of priority, and how many
instructions are visited for it. They end at ranges of continuation bytes, and `reads` says what
such a range stands for. -/
inductive Spells (automaton : Automaton) (reads : Inst → Nat → List Extension → Prop) :
    Int → Nat → List Extension → Prop where
  | range {pc inst cost exts}
      (here : automaton.inst? pc = some inst) (plain : Continues inst)
      (found : reads inst cost exts) :
      Spells automaton reads pc (cost + 1) exts
  | choice {pc inst cost cost' exts exts'}
      (here : automaton.inst? pc = some inst) (op : inst.op = .alt ∨ inst.op = .altMatch)
      (first : Spells automaton reads inst.out cost exts)
      (second : Spells automaton reads inst.out1 cost' exts') :
      Spells automaton reads pc (cost + cost' + 1) (exts ++ exts')

/-- The extensions of a range of fourth bytes, after the bits of the third byte. -/
def FourthBytes (bits : Nat) (inst : Inst) (cost : Nat) (exts : List Extension) : Prop :=
  cost = 0 ∧ ((bytesOf inst).map fun byte => 0xF0000 + (bits * 64 + byte % 64)).mapM
    (Codec.extension? inst.out) = some exts

/-- What is spelled after each of the given third bytes, which lead to `out`. -/
inductive ThirdBytes (automaton : Automaton) (out : Int) :
    List Nat → Nat → List Extension → Prop where
  | nil : ThirdBytes automaton out [] 0 []
  | cons {byte rest cost cost' exts exts'}
      (first : Spells automaton (FourthBytes (byte % 64)) out cost exts)
      (others : ThirdBytes automaton out rest cost' exts') :
      ThirdBytes automaton out (byte :: rest) (cost + cost') (exts ++ exts')

/-- The instruction and the next one read the two bytes that begin every code of an extension, and
what comes after them spells the given extensions in not too many steps. -/
def Encodes (automaton : Automaton) (inst : Inst) (exts : List Extension) : Prop :=
  isByte inst 0xF3 = true ∧ ∃ second, automaton.inst? inst.out = some second ∧
    isByte second 0xB0 = true ∧ exts ≠ [] ∧ ∃ cost ≤ maxSteps,
      Spells automaton (fun third => ThirdBytes automaton third.out (bytesOf third)) second.out cost
        exts

/-- At most one list is found, at one cost. -/
def Single (finds : Nat → List Extension → Prop) : Prop :=
  ∀ cost exts cost' exts', finds cost exts → finds cost' exts' → cost = cost' ∧ exts = exts'

section Walks

variable {reads : Inst → Nat → List Extension → Prop} {finds finds' : Nat → List Extension → Prop}
  {pr : Progress} {res : Except Stop Progress} {c : Nat} {es : List Extension}

theorem spells_choice (here : A.inst? pc = some x) (op : x.op = .alt ∨ x.op = .altMatch) :
    Spells A reads pc c es ↔ ∃ r, c = r + 1 ∧ ∃ first f second b, Spells A reads x.out first f ∧
        Spells A reads x.out1 second b ∧ r = first + second ∧ es = f ++ b := by
  constructor
  · intro spells
    cases spells with
    | range here' plain =>
      cases here.symm.trans here'
      simp [plain.1] at op
    | choice here' _ first second =>
      cases here.symm.trans here'
      exact ⟨_, rfl, _, _, _, _, first, second, rfl, rfl⟩
  · rintro ⟨r, rfl, _, _, _, _, first, second, rfl, rfl⟩
    exact .choice here op first second

theorem spells_other (here : A.inst? pc = some x) (op : x.op ≠ .alt ∧ x.op ≠ .altMatch) :
    Spells A reads pc c es ↔ ∃ r, c = r + 1 ∧ Continues x ∧ reads x r es := by
  constructor
  · intro spells
    cases spells with
    | range here' plain got =>
      cases here.symm.trans here'
      exact ⟨_, rfl, plain, got⟩
    | choice here' op' =>
      cases here.symm.trans here'
      simp [op] at op'
  · rintro ⟨r, rfl, plain, got⟩
    exact .range here plain got

theorem Spells.single (unique : ∀ x, Single (reads x)) (pc : Int) : Single (Spells A reads pc) := by
  intro c es c' es' spells
  induction spells generalizing c' es' with
  | range here plain got =>
    intro other
    obtain ⟨r, rfl, -, got'⟩ := (spells_other here (by simp [plain.1])).mp other
    obtain ⟨rfl, rfl⟩ := unique _ _ _ _ _ got got'
    exact ⟨rfl, rfl⟩
  | choice here op fst snd ih ih' =>
    intro other
    obtain ⟨r, rfl, _, _, _, _, fst', snd', rfl, rfl⟩ := (spells_choice here op).mp other
    obtain ⟨rfl, rfl⟩ := ih _ _ fst'
    obtain ⟨rfl, rfl⟩ := ih' _ _ snd'
    exact ⟨rfl, rfl⟩

theorem fourthBytes_single (bs : Nat) (x : Inst) : Single (FourthBytes bs x) := by
  rintro _ es _ es' ⟨rfl, got⟩ ⟨rfl, got'⟩
  exact ⟨rfl, Option.some.inj (got.symm.trans got')⟩

theorem thirdBytes_single (out : Int) (bs : List Nat) : Single (ThirdBytes A out bs) := by
  intro c es c' es' spelled
  induction spelled generalizing c' es' with
  | nil =>
    rintro ⟨⟩
    exact ⟨rfl, rfl⟩
  | cons fst _ ih =>
    rintro (_ | ⟨fst', others'⟩)
    obtain ⟨rfl, rfl⟩ := Spells.single (fourthBytes_single _) _ _ _ _ _ fst fst'
    obtain ⟨rfl, rfl⟩ := ih _ _ others'
    exact ⟨rfl, rfl⟩

/-- A walk comes to what is found if that takes no more steps than are left. Otherwise it ends, and
not for leaving the automaton. -/
def Outcome (finds : Nat → List Extension → Prop) (progress : Progress) :
    Except Stop Progress → Prop
  | .ok after => ∃ cost exts, finds cost exts ∧ cost ≤ progress.steps ∧
      after = ⟨progress.steps - cost, exts.reverse ++ progress.found⟩
  | .error stop => stop = .plain ∧ ∀ cost exts, finds cost exts → progress.steps < cost

theorem Outcome.none (none : ∀ c es, finds c es → pr.steps < c) :
    Outcome finds pr (.error .plain) := ⟨rfl, none⟩

theorem Outcome.step (left : pr.steps ≠ 0)
    (outcome : Outcome finds { pr with steps := pr.steps - 1 } res)
    (eq : ∀ c es, finds' c es ↔ ∃ r, c = r + 1 ∧ finds r es) : Outcome finds' pr res := by
  cases res with
  | ok v =>
    obtain ⟨c, es, got, enough, rfl⟩ := outcome
    dsimp only at enough
    refine ⟨c + 1, es, (eq _ _).mpr ⟨c, rfl, got⟩, by omega, ?_⟩
    rw [Nat.sub_sub, Nat.add_comm 1]
  | error stop =>
    obtain ⟨rfl, none⟩ := outcome
    refine ⟨rfl, fun c es got => ?_⟩
    obtain ⟨r, rfl, got'⟩ := (eq _ _).mp got
    have := none r es got'
    dsimp only at this
    omega

theorem Outcome.both {b : Progress → Except Stop Progress} (unique : Single finds)
    (next : ∀ m : Progress, m.steps ≤ pr.steps → Outcome finds' m (b m)) : Outcome finds pr res →
      Outcome (fun c es => ∃ a f second bk, finds a f ∧ finds' second bk ∧
        c = a + second ∧ es = f ++ bk) pr (match res with
        | .ok m => b m
        | .error stop => .error stop) := by
  intro outcome
  cases res with
  | error stop =>
    obtain ⟨rfl, none⟩ := outcome
    refine ⟨rfl, fun c es ⟨a, f, second, bk, got, _, cost_eq, _⟩ => ?_⟩
    have := none a f got
    omega
  | ok m =>
    obtain ⟨a, f, got, enough, rfl⟩ := outcome
    have later := next ⟨pr.steps - a, f.reverse ++ pr.found⟩ (Nat.sub_le _ _)
    dsimp only
    cases ended : b ⟨pr.steps - a, f.reverse ++ pr.found⟩ with
    | error stop =>
      rw [ended] at later
      obtain ⟨rfl, none⟩ := later
      refine ⟨rfl, fun c es ⟨a', f', second, bk, got', after, cost_eq, _⟩ => ?_⟩
      obtain ⟨rfl, -⟩ := unique _ _ _ _ got got'
      have := none second bk after
      dsimp only at this
      omega
    | ok v =>
      rw [ended] at later
      obtain ⟨second, bk, got', enough', rfl⟩ := later
      dsimp only at enough'
      refine ⟨a + second, f ++ bk, ⟨_, _, _, _, got, got', rfl, rfl⟩, by omega, ?_⟩
      simp [Nat.sub_sub]

theorem walk_outcome {read : Inst → Progress → Except Stop Progress} (whole : Sealed A.insts)
    (unique : ∀ x, Single (reads x)) (each : ∀ x pr, x.Inside A.insts.size → x.op = .byteRange →
      pr.steps ≤ maxSteps → Outcome (reads x) pr (read x pr))
    {n : Nat} (lt : 0 ≤ pc ∧ pc < A.insts.size) (pr : Progress)
    (enough : pr.steps ≤ n) (bounded : pr.steps ≤ maxSteps) :
    Outcome (Spells A reads pc) pr (walk A read n pc pr) := by
  have stopped (none : pr.steps = 0) (pc : Int) (c : Nat) (es : List Extension)
      (spells : Spells A reads pc c es) : pr.steps < c := by
    cases spells <;> omega
  induction n generalizing pc pr with
  | zero => exact .none (stopped (by omega) pc)
  | succ n ih =>
    obtain ⟨x, got, here⟩ := exists_inst? lt
    have exits := whole _ x here
    unfold walk
    split
    · next none => exact .none (stopped none pc)
    next left =>
    simp only [got]
    have walked {out : Int} (lt : 0 ≤ out ∧ out < A.insts.size) (pr' : Progress)
        (fewer : pr'.steps ≤ pr.steps - 1) :
        Outcome (Spells A reads out) pr' (walk A read n out pr') :=
      ih lt pr' (by omega) (by omega) fun none _ c es spells => by cases spells <;> omega
    cases op : x.op with
    | alt | altMatch =>
      refine .step left (.both (Spells.single unique _) (walked (exits.out1 (by simp [op])))
        (walked (exits.out (by simp [op, Opcode.hasExit])) _ (Nat.le_refl _))) fun _ _ =>
          spells_choice got (by simp [op])
    | byteRange =>
      dsimp only
      split
      · next refused =>
        refine .none fun c es spells => ?_
        obtain ⟨r, -, ⟨-, plain, fst, last⟩, -⟩ := (spells_other got (by simp [op])).mp spells
        simp [plain, fst, last] at refused
      · next proper =>
        simp only [Bool.or_eq_true, Bool.not_eq_true', not_or, Bool.not_eq_true, Bool.not_eq_false]
          at proper
        refine .step left (each x _ exits op (by dsimp only; omega)) fun c es => ?_
        rw [spells_other got (by simp [op])]
        simp [Continues, op, proper]
    | _ =>
      refine .none fun c es spells => ?_
      obtain ⟨r, -, ⟨op', -⟩, -⟩ := (spells_other got (by simp [op])).mp spells
      simp [op] at op'

end Walks

def orPlain {α : Type} : Option α → Except Stop α
  | some value => .ok value
  | none => .error .plain

theorem decodeLast_eq (x : Inst) (small : bs < 64) (bytes : List Nat) (found : List Extension) :
    decodeLast x bs bytes found = orPlain (((bytes.map fun b => 0xF0000 + (bs * 64 + b % 64)).mapM
        (extension? x.out)).map fun es => es.reverse ++ found) := by
  induction bytes generalizing found with
  | nil => rfl
  | cons b r ih =>
    rw [decodeLast, reservedLo_or (by omega), map_cons, mapM_cons]
    cases dec : decode? (0xF0000 + (bs * 64 + b % 64)) with
    | none => simp [extension?, dec, orPlain]
    | some c =>
      obtain ⟨k, arg⟩ := c
      by_cases meaningful : validArg k arg = true
      · simp only [meaningful, if_true, ih, extension?, dec, Option.bind_some]
        cases (r.map fun b => 0xF0000 + (bs * 64 + b % 64)).mapM
          (extension? x.out) <;> simp [orPlain]
      · simp [meaningful, extension?, dec, orPlain]

theorem readLast_outcome (small : bs < 64) (x : Inst) (pr : Progress) :
    Outcome (FourthBytes bs x) pr (readLast bs x pr) := by
  rw [readLast, decodeLast_eq x small]
  cases got : ((bytesOf x).map fun b => 0xF0000 + (bs * 64 + b % 64)).mapM
    (extension? x.out) with
  | none => exact .none fun _ _ ⟨_, got'⟩ => by simp [got] at got'
  | some es => exact ⟨0, es, ⟨rfl, got⟩, Nat.zero_le _, rfl⟩

theorem thirdBytes_cons {c co : Nat} {r : List Nat} {es : List Extension} :
    ThirdBytes A out (c :: r) co es ↔ ∃ a f b bk, Spells A (FourthBytes (c % 64)) out a f ∧
        ThirdBytes A out r b bk ∧ co = a + b ∧ es = f ++ bk := by
  constructor
  · rintro (_ | ⟨fst, others⟩)
    exact ⟨_, _, _, _, fst, others, rfl, rfl⟩
  · rintro ⟨_, _, _, _, fst, others, rfl, rfl⟩
    exact .cons fst others

theorem Spells.forall {reads : Inst → Nat → List Extension → Prop} {c : Nat} {es : List Extension}
    {holds : Extension → Prop} (spells : Spells A reads pc c es)
    (each : ∀ (pc : Nat) x c es, A.insts[pc]? = some x → x.op = .byteRange →
      reads x c es → ∀ ext ∈ es, holds ext) : ∀ ext ∈ es, holds ext := by
  induction spells with
  | range here plain got =>
    obtain ⟨n, -, here⟩ := getElem?_of_inst? here
    exact each _ _ _ _ here plain.1 got
  | choice _ _ _ _ ih ih' => exact forall_mem_append.mpr ⟨ih, ih'⟩

section Sealed

variable (whole : Sealed A.insts)

include whole

theorem forBytes_outcome (lt : 0 ≤ out ∧ out < A.insts.size) (bs : List Nat)
    (pr : Progress) (bounded : pr.steps ≤ maxSteps) : Outcome (ThirdBytes A out bs) pr
      (forBytes (fun b => walk A (readLast (b % 64)) maxSteps out) bs pr) := by
  induction bs generalizing pr with
  | nil => exact ⟨0, [], .nil, Nat.zero_le _, rfl⟩
  | cons b r ih =>
    change Outcome (fun c es => ThirdBytes A out (b :: r) c es) pr _
    simp only [thirdBytes_cons]
    refine .both (Spells.single (fourthBytes_single _) out)
      (fun m fewer => ih m (Nat.le_trans fewer bounded)) ?_
    exact walk_outcome whole (fourthBytes_single _)
      (fun x pr _ _ _ => readLast_outcome (Nat.mod_lt _ (by decide)) x pr)
      lt pr bounded bounded

/-- At an instruction the extensions are found that it encodes, and otherwise nothing. -/
theorem extensionsAt_cases {pc : Nat} (here : A.insts[pc]? = some x) :
    (extensionsAt A x = .error .plain ∧ ∀ es, ¬Encodes A x es) ∨
      ∃ es, extensionsAt A x = .ok es ∧ Encodes A x es := by
  have exit {pc : Nat} {ins : Inst} {byte : UInt8} (here : A.insts[pc]? = some ins)
      (lead : isByte ins byte = true) : 0 ≤ ins.out ∧ ins.out < A.insts.size :=
    (whole pc ins here).out (by simp [(isByte_iff.mp lead).1, Opcode.hasExit])
  unfold extensionsAt
  split
  · next lead =>
    obtain ⟨b, got, there⟩ := exists_inst? (exit here lead)
    simp only [got]
    split
    · next follows =>
      have outcome := walk_outcome whole (fun ins => thirdBytes_single ins.out (bytesOf ins))
        (fun ins pr exits op bounded => forBytes_outcome whole
          (exits.out (by simp [op, Opcode.hasExit])) (bytesOf ins) pr bounded)
        (exit there follows) ⟨maxSteps, []⟩ (Nat.le_refl _) (Nat.le_refl _)
      have only {es : List Extension} (enc : Encodes A x es) : es ≠ [] ∧
          ∃ c ≤ maxSteps, Spells A
            (fun d => ThirdBytes A d.out (bytesOf d)) b.out c es := by
        obtain ⟨-, o, got', -, spelled⟩ := enc
        cases got.symm.trans got'
        exact spelled
      change Outcome _ _ (walk A (readThird A) maxSteps b.out ⟨maxSteps, []⟩) at outcome
      cases walked : walk A (readThird A) maxSteps b.out ⟨maxSteps, []⟩ with
      | error stop =>
        rw [walked] at outcome
        obtain ⟨rfl, none⟩ := outcome
        refine .inl ⟨rfl, fun es enc => ?_⟩
        obtain ⟨-, c, enough, spells⟩ := only enc
        exact absurd (none c es spells) (Nat.not_lt.mpr enough)
      | ok pr =>
        rw [walked] at outcome
        obtain ⟨c, es, spells, enough, rfl⟩ := outcome
        dsimp only
        rw [append_nil, isEmpty_reverse, reverse_reverse]
        split
        · next empty =>
          refine .inl ⟨rfl, fun es' enc => ?_⟩
          obtain ⟨ne, c', -, spells'⟩ := only enc
          obtain ⟨-, rfl⟩ := Spells.single (fun ins => thirdBytes_single ins.out (bytesOf ins)) _
            _ _ _ _ spells spells'
          exact ne (List.isEmpty_iff.mp empty)
        · next ne =>
          exact .inr ⟨es, rfl, lead, b, got, follows, by simpa using ne, c, enough, spells⟩
    · next other =>
      refine .inl ⟨rfl, fun es enc => other ?_⟩
      obtain ⟨-, b', got', follows, -⟩ := enc
      rwa [Option.some.inj (got.symm.trans got')]
  · next other => exact .inl ⟨rfl, fun es enc => other enc.1⟩

/-- Encoded extensions mean something and lead to instructions. -/
theorem Encodes.meant {es : List Extension} (enc : Encodes A x es) :
    ∀ ext ∈ es, (validArg ext.kind ext.arg = true ∧ ext.arg < 256) ∧
      0 ≤ ext.out ∧ ext.out < A.insts.size := by
  obtain ⟨-, b, -, -, -, c, -, spells⟩ := enc
  refine spells.forall fun pc d c es _ _ spelled => ?_
  generalize bytesOf d = bs at spelled
  induction spelled with
  | nil => simp
  | cons fst _ ih =>
    refine forall_mem_append.mpr ⟨fst.forall fun pc z c es here op got => ?_, ih⟩
    refine forall_of_mapM got.2 fun cd _ ext found => ?_
    obtain ⟨-, means, exit⟩ := of_extension? found
    exact ⟨means, exit ▸ (whole pc z here).out (by simp [op, Opcode.hasExit])⟩

theorem extensionsAt_eq_ok {pc : Nat} (here : A.insts[pc]? = some x) {es : List Extension} :
    extensionsAt A x = .ok es ↔ Encodes A x es := by
  rcases extensionsAt_cases whole here with ⟨plain, none⟩ | ⟨es', got, enc⟩
  · simp [plain, none]
  · rw [got, Except.ok.injEq]
    refine ⟨fun eq => eq ▸ enc, fun enc' => ?_⟩
    obtain ⟨-, b, got, -, -, _, -, spells⟩ := enc
    obtain ⟨-, b', got', -, -, _, -, spells'⟩ := enc'
    cases got.symm.trans got'
    exact (Spells.single (fun c => thirdBytes_single c.out (bytesOf c)) _
      _ _ _ _ spells spells').2

omit whole in
/-- Where no walk is given up, the overlay holds the instructions at which extensions are found. -/
theorem mem_overlayFrom? (I : List Inst) (i : Nat)
    (stays : ∀ x ∈ I, extensionsAt A x ≠ .error .outside) :
    ∃ overlay, overlayFrom? A i I = some overlay ∧ ∀ pc es, (pc, es) ∈ overlay ↔
      ∃ j x, pc = ((i + j : Nat) : Int) ∧ I[j]? = some x ∧ extensionsAt A x = .ok es := by
  induction I generalizing i with
  | nil => exact ⟨[], rfl, by simp⟩
  | cons x r ih =>
    obtain ⟨overlay, req, mem⟩ := ih (i + 1) fun o hm => stays o (.tail _ hm)
    have split (pc : Int) (es : List Extension) : (∃ j o, pc = ((i + j : Nat) : Int) ∧
        (x :: r)[j]? = some o ∧ extensionsAt A o = .ok es) ↔
          (pc = i ∧ extensionsAt A x = .ok es) ∨ (pc, es) ∈ overlay := by
      rw [← Nat.or_exists_add_one, mem]
      refine or_congr (by simp) (exists_congr fun j => ?_)
      rw [Nat.add_assoc, Nat.add_comm 1, getElem?_cons_succ]
    simp only [split]
    unfold overlayFrom?
    cases got : extensionsAt A x with
    | error stop =>
      cases stop with
      | outside => exact False.elim (stays x (.head _) got)
      | plain => exact ⟨overlay, req, by simp⟩
    | ok es => exact ⟨_, by rw [req]; rfl, by simp [eq_comm]⟩

theorem mem_overlay? : ∃ made, overlay? A = some made ∧ ∀ pc es, (pc, es) ∈ made ↔
    ∃ x, A.inst? pc = some x ∧ Encodes A x es := by
  obtain ⟨made, made_eq, mem⟩ := mem_overlayFrom? A.insts.toList 0 fun x hm => show
      extensionsAt A x ≠ .error .outside by
    obtain ⟨i, there⟩ := mem_iff_getElem?.mp hm
    rcases extensionsAt_cases whole (show A.insts[i]? = some x by simpa using there)
      with ⟨plain, -⟩ | ⟨es, got, -⟩
    · simp [plain]
    · simp [got]
  refine ⟨made, made_eq, fun pc es => (mem pc es).trans ⟨?_, ?_⟩⟩
  · rintro ⟨i, x, rfl, there, got⟩
    have here : A.insts[i]? = some x := by simpa using there
    exact ⟨x, by simpa [inst?_natCast] using here, (extensionsAt_eq_ok whole here).mp got⟩
  · rintro ⟨x, got, enc⟩
    obtain ⟨n, rfl, here⟩ := getElem?_of_inst? got
    exact ⟨n, x, by simp, by simpa using here, (extensionsAt_eq_ok whole here).mpr enc⟩

theorem overlay_find? {pc : Nat} {x : Inst} (here : A.insts[pc]? = some x) :
    (overlay A).find? pc = (extensionsAt A x).toOption := by
  obtain ⟨made, made_eq, mem⟩ := mem_overlay? whole
  have mem (es : List Extension) : ((pc : Int), es) ∈ made ↔ extensionsAt A x = .ok es := by
    simp [mem, extensionsAt_eq_ok whole here, inst?_natCast, here]
  rw [overlay, made_eq, Option.getD_some, Overlay.find?]
  cases got : List.lookup (pc : Int) made with
  | none =>
    cases there : extensionsAt A x with
    | error => rfl
    | ok es => simpa using lookup_eq_none_iff.mp got _ ((mem es).mpr there)
  | some es =>
    obtain ⟨u, v, parts, -⟩ := lookup_eq_some_iff.mp got
    rw [(mem es).mp (by simp [parts])]
    rfl

theorem overlayFault?_eq_none : (⟨A, overlay A⟩ : Graph).overlayFault? = none := by
  obtain ⟨made, made_eq, mem⟩ := mem_overlay? whole
  rw [overlay, made_eq, Option.getD_some]
  refine findSome?_eq_none_iff.mpr fun ⟨pc, es⟩ hm => ?_
  obtain ⟨x, here, enc⟩ := (mem pc es).mp hm
  have stands : (A.inst? pc).any (·.op = .byteRange) = true := by
    simp [here, (isByte_iff.mp enc.1).1]
  simp only [stands, if_true, Option.map_eq_none_iff, find?_eq_none]
  intro ext inExts
  obtain ⟨⟨means, -⟩, exit⟩ := enc.meant whole ext inExts
  have known : ext.kind.isKnown = true := by
    cases kind : ext.kind <;> simp [kind, validArg, ExtensionKind.isKnown] at means ⊢
  simp [known, inside, exit]

end Sealed

theorem sealed_of_validate (acc : A.validate = .ok ()) : Sealed A.insts := by
  unfold validate at acc
  split at acc
  · simp at acc
  split at acc
  · simp at acc
  split at acc
  · simp at acc
  next faultless =>
  intro i x got
  have faultless := Graph.faultAt?_of_firstFault? faultless (show _ = some x by simpa using got)
  obtain ⟨exit, secondExit⟩ := Graph.inside_of_faultless faultless
  refine ⟨fun hasExit => ?_, fun alt => ?_, fun c unknown => ?_⟩
  · simpa [inside] using exit hasExit
  · simpa [inside] using secondExit alt
  · simp [faultAt?, unknown] at faultless

/-- The instructions other than alternatives that alternatives lead to. -/
inductive Leads (automaton : Automaton) : Int → Inst → Prop where
  | here {pc inst} (found : automaton.inst? pc = some inst)
      (op : inst.op ≠ .alt ∧ inst.op ≠ .altMatch) : Leads automaton pc inst
  | first {pc inst target} (found : automaton.inst? pc = some inst)
      (op : inst.op = .alt ∨ inst.op = .altMatch) (leads : Leads automaton inst.out target) :
      Leads automaton pc target
  | second {pc inst target} (found : automaton.inst? pc = some inst)
      (op : inst.op = .alt ∨ inst.op = .altMatch) (leads : Leads automaton inst.out1 target) :
      Leads automaton pc target

theorem Leads.reads {reads : Inst → Nat → List Extension → Prop} {c : Nat} {es : List Extension}
    (leads : Leads A pc x) (spells : Spells A reads pc c es) :
    Continues x ∧ ∃ c found, reads x c found ∧ found ⊆ es := by
  induction leads generalizing c es with
  | here got op =>
    obtain ⟨r, -, plain, found⟩ := (spells_other got op).mp spells
    exact ⟨plain, r, es, found, fun _ => id⟩
  | first got op _ ih =>
    obtain ⟨-, -, _, _, _, _, fst, -, -, rfl⟩ := (spells_choice got op).mp spells
    obtain ⟨plain, c, found, reads, mem⟩ := ih fst
    exact ⟨plain, c, found, reads, subset_append_of_subset_left _ mem⟩
  | second got op _ ih =>
    obtain ⟨-, -, _, _, _, _, -, snd, -, rfl⟩ := (spells_choice got op).mp spells
    obtain ⟨plain, c, found, reads, mem⟩ := ih snd
    exact ⟨plain, c, found, reads, subset_append_of_subset_right _ mem⟩

theorem ThirdBytes.reads {out : Int} {bs : List Nat} {c : Nat} {es : List Extension}
    (spelled : ThirdBytes A out bs c es) {b : Nat} (mem : b ∈ bs) :
    ∃ c found, Spells A (FourthBytes (b % 64)) out c found ∧ found ⊆ es := by
  induction spelled with
  | nil => simp at mem
  | cons fst _ ih =>
    rcases mem_cons.mp mem with rfl | mem
    · exact ⟨_, _, fst, subset_append_left _ _⟩
    · obtain ⟨c, found, spells, hm⟩ := ih mem
      exact ⟨c, found, spells, subset_append_of_subset_right _ hm⟩

/-- Recovery of an accepted automaton finds the extensions of exactly the instructions that encode
some, and whatever can come after such an instruction and the next one is two continuation bytes
that are the code of one of its extensions. -/
theorem overlay?_exact {automaton : Automaton} (accepted : automaton.validate = .ok ()) :
    ∃ overlay, overlay? automaton = some overlay ∧ ∀ pc exts,
      ((pc, exts) ∈ overlay ↔ ∃ inst, automaton.inst? pc = some inst ∧
        Encodes automaton inst exts) ∧
      ((pc, exts) ∈ overlay → ∃ inst second, automaton.inst? pc = some inst ∧
        isByte inst 0xF3 = true ∧ automaton.inst? inst.out = some second ∧
        isByte second 0xB0 = true ∧
        ∀ third, Leads automaton second.out third → Continues third ∧ ∀ byte ∈ bytesOf third,
          ∀ fourth, Leads automaton third.out fourth → Continues fourth ∧ ∀ byte' ∈ bytesOf fourth,
            ∃ ext ∈ exts, Codec.extension? fourth.out (0xF0000 + (byte % 64 * 64 + byte' % 64)) =
              some ext) := by
  obtain ⟨made, made_eq, mem⟩ := mem_overlay? (sealed_of_validate accepted)
  refine ⟨made, made_eq, fun pc exts => ⟨mem pc exts, fun listed => ?_⟩⟩
  obtain ⟨inst, here, lead, second, there, follows, -, cost, -, spells⟩ := (mem pc exts).mp listed
  refine ⟨inst, second, here, lead, there, follows, fun third leads => ?_⟩
  obtain ⟨plain, _, found, spelled, listed⟩ := leads.reads spells
  refine ⟨plain, fun byte inThird fourth leads => ?_⟩
  obtain ⟨_, found', spells, listed'⟩ := ThirdBytes.reads spelled inThird
  obtain ⟨plain, _, found, ⟨-, codes⟩, listed''⟩ := leads.reads spells
  refine ⟨plain, fun byte' inFourth => ?_⟩
  obtain ⟨ext, inFound, decoded⟩ := exists_of_mapM codes _ (mem_map_of_mem inFourth)
  exact ⟨ext, listed (listed' (listed'' inFound)), decoded⟩

/-- An instruction with two extensions first and then another one, which leads elsewhere. -/
def encoding : Automaton where
  insts := #[{ op := .byteRange, lo := 0xF3, hi := 0xF3, out := 1 },
    { op := .byteRange, lo := 0xB0, hi := 0xB0, out := 2 }, { op := .alt, out := 5, out1 := 3 },
    { op := .byteRange, lo := 0x84, hi := 0x84, out := 4 },
    { op := .byteRange, lo := 0x81, hi := 0x81, out := 7 },
    { op := .byteRange, lo := 0x88, hi := 0x88, out := 6 },
    { op := .byteRange, lo := 0x81, hi := 0x82, out := 0 }, { op := .accept }]
  start := 0
  slots := 2

theorem encoding_encodes : ∃ inst, encoding.inst? 0 = some inst ∧
    Encodes encoding inst
      [⟨.backreference, 1, 0⟩, ⟨.backreference, 2, 0⟩, ⟨.notCategory, 1, 7⟩] := by
  have accepted : encoding.validate = .ok () := by decide +kernel
  obtain ⟨overlay, found, exact⟩ := overlay?_exact accepted
  refine (exact 0 _).1.mp ?_
  have listed : (overlay? encoding).any (((0 : Int), [(⟨.backreference, 1, 0⟩ : Extension),
      ⟨.backreference, 2, 0⟩, ⟨.notCategory, 1, 7⟩]) ∈ ·) = true := by decide +kernel
  simpa [found] using listed

end Recovery

end Rematch
