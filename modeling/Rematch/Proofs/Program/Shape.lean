import Rematch.Program.Lowering
import Rematch.Proofs.Automaton.Edges

/-!
What lowering appends for a step that consumes a code point. A chain tests one byte after the
other; a reader chooses between chains, in order. Both lead to the exit of the step, and
everything but their first instruction comes after all steps of the program, where nothing else is
appended.
-/

namespace Rematch

/-- The exits of an instruction lead to one of `size` instructions. -/
structure Inst.Inside (size : Nat) (inst : Inst) : Prop where
  out : inst.op.hasExit = true → 0 ≤ inst.out ∧ inst.out < size
  out1 : inst.op = .alt ∨ inst.op = .altMatch → 0 ≤ inst.out1 ∧ inst.out1 < size
  known : ∀ code, inst.op ≠ .unknown code

theorem Inst.Inside.mono {n larger : Nat} {x : Inst} (lt : x.Inside n) (le : n ≤ larger) :
    x.Inside larger where
  out hasExit := by
    have := lt.out hasExit
    omega
  out1 alt := by
    have := lt.out1 alt
    omega
  known := lt.known

theorem Inst.inside_fail (n : Nat) : ({ op := .fail } : Inst).Inside n where
  out hasExit := by simp [Opcode.hasExit] at hasExit
  out1 alt := by simp at alt
  known := by simp

namespace Lowering

structure ByteTest where
  range : ByteRange
  fold : Bool

namespace ByteTest

/-- The byte range that makes the test and leads to `out`. -/
def inst (test : ByteTest) (out : Int) : Inst :=
  { op := .byteRange, lo := test.range.lo, hi := test.range.hi, fold := test.fold, out }

def accepts (test : ByteTest) (byte : UInt8) : Bool := (test.inst 0).accepts byte

def within (range : ByteRange) : ByteTest := ⟨range, false⟩

@[simp] theorem accepts_inst (t : ByteTest) (out : Int) : (t.inst out).accepts = t.accepts := rfl

end ByteTest

/-- The byte ranges from `pc` on make the given tests in turn and then lead to `out`. -/
inductive Chain (insts : Array Inst) (base : Nat) (out : Int) : Nat → List ByteTest → Prop where
  | last {pc test} (here : insts[pc]? = some (test.inst out)) :
      Chain insts base out pc [test]
  | more {pc next test tests}
      (here : insts[pc]? = some (test.inst next)) (appended : base ≤ next)
      (rest : Chain insts base out next tests) : Chain insts base out pc (test :: tests)

/-- From `pc` on, chains for the given lists of tests are tried in order. -/
inductive Reader (insts : Array Inst) (base : Nat) (out : Int) :
    Nat → List (List ByteTest) → Prop where
  | fail {pc} (here : insts[pc]? = some { op := .fail }) : Reader insts base out pc []
  | chain {pc tests} (chain : Chain insts base out pc tests) :
      Reader insts base out pc [tests]
  | pair {pc first second tests tests'}
      (here : insts[pc]? = some { op := .alt, out := first, out1 := second })
      (appended : base ≤ first) (appended' : base ≤ second)
        (chain : Chain insts base out first tests)
      (chain' : Chain insts base out second tests') : Reader insts base out pc [tests, tests']
  | choice {pc head next tests rest}
      (here : insts[pc]? = some { op := .alt, out := head, out1 := next })
      (appended : base ≤ head) (further : pc < next) (appended' : base ≤ next) (several : rest ≠ [])
      (chain : Chain insts base out head tests) (others : Reader insts base out next rest) :
      Reader insts base out pc (tests :: rest)

variable {I I' : Array Inst} {b pc : Nat} {out : Int}

variable {ts : List ByteTest} {n second : Nat} {hs : List Nat} {x : Inst}
  {ss : List (List ByteRange)}

theorem Chain.first (ch : Chain I b out pc ts) :
    ∃ t r n, ts = t :: r ∧ I[pc]? = some (t.inst n) := by
  cases ch with
  | last here | more here => exact ⟨_, _, _, rfl, here⟩

theorem Chain.mono (ch : Chain I b out pc ts) (kept : ∀ i x, i = pc ∨ b ≤ i → x.op = .byteRange →
      I[i]? = some x → I'[i]? = some x) : Chain I' b out pc ts := by
  induction ch with
  | last here => exact .last (kept _ _ (.inl rfl) rfl here)
  | more here app rest ih =>
    refine .more (kept _ _ (.inl rfl) rfl here) app (ih ?_)
    intro i x place
    rcases place with rfl | after
    · exact kept i x (.inr app)
    · exact kept i x (.inr after)

theorem Reader.mono {ts : List (List ByteTest)} (reader : Reader I b out pc ts)
    (kept : ∀ i x, i = pc ∨ b ≤ i → I[i]? = some x → I'[i]? = some x) : Reader I' b out pc ts := by
  induction reader with
  | fail here => exact .fail (kept _ _ (.inl rfl) here)
  | chain ch => exact .chain (ch.mono fun i x place _ => kept i x place)
  | pair here app app' ch ch' =>
    refine .pair (kept _ _ (.inl rfl) here) app app' (ch.mono ?_) (ch'.mono ?_)
    · intro i x place _
      rcases place with rfl | after
      · exact kept i x (.inr app)
      · exact kept i x (.inr after)
    · intro i x place _
      rcases place with rfl | after
      · exact kept i x (.inr app')
      · exact kept i x (.inr after)
  | choice here app further app' several ch others ih =>
    refine .choice (kept _ _ (.inl rfl) here) app further app' several (ch.mono ?_) (ih ?_)
    · intro i x place _
      rcases place with rfl | after
      · exact kept i x (.inr app)
      · exact kept i x (.inr after)
    · intro i x place
      rcases place with rfl | after
      · exact kept i x (.inr app')
      · exact kept i x (.inr after)

variable (insts : Array Inst)

/-- An alternative or a byte range leads to an instruction from `base` on. -/
def Precedes (base pc next : Nat) : Prop :=
  base ≤ next ∧ ∃ inst, insts[pc]? = some inst ∧
    (inst.op = .byteRange ∧ inst.out = next ∨ inst.op = .alt ∧ (inst.out = next ∨ inst.out1 = next))

/-- The instructions from `base` on that can be reached from the one at `pc`, and itself. -/
def Part (base : Nat) : Nat → Nat → Prop :=
  Relation.ReflTransGen (Precedes insts base)

theorem Part.mono (part : Part I b pc n)
    (kept : ∀ i x, i = pc ∨ b ≤ i → I[i]? = some x → I'[i]? = some x) : Part I' b pc n := by
  induction part with
  | refl => exact .refl
  | tail path step ih =>
    obtain ⟨app, x, here, leads⟩ := step
    refine ih.tail ⟨app, x, kept _ x ?_ here, leads⟩
    rcases path.cases_tail with rfl | ⟨_, -, after, -⟩
    · exact .inl rfl
    · exact .inr after

/-- The instructions that alternatives lead to, without a byte that is consumed. -/
def Chooses (base : Nat) : Nat → Nat → Prop :=
  Relation.ReflTransGen fun pc next => base ≤ next ∧ ∃ inst, insts[pc]? = some inst ∧
    inst.op = .alt ∧ (inst.out = next ∨ inst.out1 = next)

theorem Chooses.part (chooses : Chooses I b pc n) : Part I b pc n :=
  chooses.lift id fun _ _ ⟨app, x, here, leads⟩ => ⟨app, x, here, .inr leads⟩

/-- The instruction consumes nothing: it fails, or chooses between others that were appended. -/
def Fork (base pc : Nat) : Prop :=
  insts[pc]? = some { op := .fail } ∨ ∃ first second : Nat, (base ≤ first ∧ base ≤ second) ∧
    insts[pc]? = some { op := .alt, out := first, out1 := second }

theorem part_of_alt {a : Nat}
    (here : I[pc]? = some { op := .alt, out := a, out1 := second }) (part : Part I b pc n) :
    pc = n ∨ Part I b a n ∨ Part I b second n := by
  rcases part.cases_head with eq | ⟨nx, ⟨-, x, got, leads⟩, rest⟩
  · exact .inl eq
  cases here.symm.trans got
  rcases leads with ⟨op, -⟩ | ⟨-, eq | eq⟩
  · simp at op
  · exact .inr (.inl (Int.ofNat_inj.mp eq ▸ rest))
  · exact .inr (.inr (Int.ofNat_inj.mp eq ▸ rest))

theorem Chain.parts (ch : Chain I b out pc ts) (early : out < b)
    {nd : Nat} (part : Part I b pc nd) :
    ∃ f bk, f ++ bk = ts ∧ Chain I b out nd bk ∧ (f = [] → nd = pc) := by
  have leads {pc n : Nat} {t : ByteTest} {x : Int} (here : I[pc]? = some (t.inst x))
      (precedes : Precedes I b pc n) : x = n ∧ b ≤ n := by
    obtain ⟨app, ins, got, ⟨-, out⟩ | ⟨op, -⟩⟩ := precedes
    · cases here.symm.trans got
      exact ⟨out, app⟩
    · cases here.symm.trans got
      simp [ByteTest.inst] at op
  induction ch with
  | last here =>
    rcases part.cases_head with rfl | ⟨n, precedes, -⟩
    · exact ⟨[], _, rfl, .last here, fun _ => rfl⟩
    · have := leads here precedes
      omega
  | more here app rest ih =>
    rcases part.cases_head with rfl | ⟨n, precedes, later⟩
    · exact ⟨[], _, rfl, .more here app rest, fun _ => rfl⟩
    · obtain rfl := Int.ofNat_inj.mp (leads here precedes).1
      obtain ⟨f, bk, rfl, ch, -⟩ := ih later
      exact ⟨_ :: f, bk, rfl, ch, nofun⟩

/-- From `pc` on there are forks and chains for the given lists of tests, with the given heads. -/
structure HasParts (insts : Array Inst) (base : Nat) (out : Int) (pc : Nat) (heads : List Nat)
    (tests : List (List ByteTest)) : Prop where
  chains :
    List.Forall₂ (fun head test => Chooses insts base pc head ∧ Chain insts base out head test)
    heads tests
  nodes : ∀ node, Part insts base pc node → Fork insts base node ∨ ∃ front back,
    front ++ back ∈ tests ∧ Chain insts base out node back ∧ (front = [] → node ∈ heads)

theorem Chain.hasParts (ch : Chain I b out pc ts) (early : out < b) :
    HasParts I b out pc [pc] [ts] where
  chains := .cons ⟨.refl, ch⟩ .nil
  nodes n part := by
    obtain ⟨f, bk, rfl, ch', eq⟩ := ch.parts early part
    exact .inr ⟨f, bk, .head _, ch', fun none => by simp [eq none]⟩

theorem HasParts.choice {a : Nat}
    {r : List (List ByteTest)} (here : I[pc]? = some { op := .alt, out := a, out1 := second })
    (app : b ≤ a) (app' : b ≤ second) (ch : Chain I b out a ts)
    (early : out < b) (others : HasParts I b out second hs r) :
    HasParts I b out pc (a :: hs) (ts :: r) where
  chains := .cons ⟨.single ⟨app, _, here, rfl, .inl rfl⟩, ch⟩ (others.chains.imp fun _ _ later =>
    ⟨.head ⟨app', _, here, rfl, .inr rfl⟩ later.1, later.2⟩)
  nodes n part := by
    rcases part_of_alt here part with rfl | part | part
    · exact .inl (.inr ⟨a, second, ⟨app, app'⟩, here⟩)
    · obtain ⟨f, bk, rfl, ch, eq⟩ := ch.parts early part
      exact .inr ⟨f, bk, .head _, ch, fun none => by simp [eq none]⟩
    · exact (others.nodes n part).imp_right fun ⟨f, bk, mem, ch, same⟩ =>
        ⟨f, bk, .tail _ mem, ch, fun none => .tail _ (same none)⟩

theorem Reader.hasParts {ts : List (List ByteTest)} (reader : Reader I b out pc ts)
    (early : out < b) : ∃ hs, HasParts I b out pc hs ts := by
  induction reader with
  | fail here =>
    refine ⟨[], .nil, fun n part => .inl (.inl ?_)⟩
    rcases part.cases_head with rfl | ⟨nx, ⟨-, x, got, leads⟩, -⟩
    · exact here
    · cases here.symm.trans got
      simp at leads
  | chain ch => exact ⟨_, ch.hasParts early⟩
  | pair here app app' ch ch' => exact ⟨_, .choice here app app' ch early (ch'.hasParts early)⟩
  | choice here app _ app' _ ch _ ih =>
    obtain ⟨hs, others⟩ := ih
    exact ⟨_, .choice here app app' ch early others⟩

/-- Instructions were appended, and none of the others but the one at `pc` was written. -/
structure Writes (insts : Array Inst) (pc : Nat) (insts' : Array Inst) : Prop where
  size_le : insts.size ≤ insts'.size
  kept : ∀ index < insts.size, index ≠ pc → insts'[index]? = insts[index]?

structure Appends (insts insts' : Array Inst) : Prop where
  size_le : insts.size ≤ insts'.size
  kept : ∀ index < insts.size, insts'[index]? = insts[index]?

def Sealed : Prop :=
  ∀ (index : Nat) (inst : Inst), insts[index]? = some inst → inst.Inside insts.size

namespace Appends

theorem refl (I : Array Inst) : Appends I I := ⟨Nat.le_refl _, fun _ _ => rfl⟩

theorem trans {I'' : Array Inst} (fst : Appends I I') (snd : Appends I' I'') :
    Appends I I'' where
  size_le := Nat.le_trans fst.size_le snd.size_le
  kept i le := by rw [snd.kept i (Nat.lt_of_lt_of_le le fst.size_le), fst.kept i le]

theorem push (I : Array Inst) (x : Inst) : Appends I (I.push x) where
  size_le := by simp
  kept i le := Array.getElem?_push_lt le ▸ (Array.getElem?_eq_getElem le).symm

theorem getElem? (appends : Appends I I') {i : Nat} (got : I[i]? = some x) :
    I'[i]? = some x := by
  obtain ⟨le, -⟩ := Array.getElem?_eq_some_iff.mp got
  rw [appends.kept i le, got]

end Appends

theorem Sealed.push (whole : Sealed I) (lt : x.Inside (I.size + 1)) : Sealed (I.push x) := by
  intro i o got
  rw [Array.getElem?_push] at got
  rw [Array.size_push]
  split at got
  · cases got
    exact lt
  · exact (whole i o got).mono (Nat.le_succ _)

theorem Sealed.setIfInBounds (whole : Sealed I) (lt : x.Inside I.size) :
    Sealed (I.setIfInBounds pc x) := by
  intro i o got
  rw [Array.getElem?_setIfInBounds] at got
  rw [Array.size_setIfInBounds]
  split at got
  · split at got
    · cases got
      exact lt
    · simp at got
  · exact whole i o got

theorem inside_byteInst {n : Nat} (range : ByteRange) (lt : 0 ≤ out ∧ out < n) :
    (byteInst range out).Inside n where
  out _ := lt
  out1 alt := by simp [byteInst] at alt
  known := by simp [byteInst]

theorem chain_cons (I : Array Inst) (out : Int) (range b : ByteRange) (r : List ByteRange) :
    chain I out (range :: b :: r) =
      (byteInst range (chain I out (b :: r)).2.size,
        (chain I out (b :: r)).2.push (chain I out (b :: r)).1) := rfl

theorem chain_appends (I : Array Inst) (out : Int) (rs : List ByteRange) :
    Appends I (chain I out rs).2 := by
  induction rs with
  | nil => exact .refl _
  | cons range r ih =>
    cases r with
    | nil => exact .refl _
    | cons b r => exact ih.trans (.push _ _)

theorem chain_sealed (whole : Sealed I) (lt : 0 ≤ out ∧ out < I.size) (rs : List ByteRange) :
    Sealed (chain I out rs).2 ∧ (chain I out rs).1.Inside (chain I out rs).2.size := by
  induction rs with
  | nil => exact ⟨whole, Inst.inside_fail _⟩
  | cons range r ih =>
    cases r with
    | nil => exact ⟨whole, inside_byteInst range lt⟩
    | cons b r =>
      obtain ⟨whole', lt'⟩ := ih
      rw [chain_cons]
      refine ⟨whole'.push (lt'.mono (Nat.le_succ _)), inside_byteInst range ?_⟩
      rw [Array.size_push]
      omega

theorem chain_chain {rs : List ByteRange} (ne : rs ≠ []) (room : b ≤ I.size)
    (kept : ∀ i x, b ≤ i → x.op = .byteRange → (chain I out rs).2[i]? = some x → I'[i]? = some x)
    (here : I'[pc]? = some (chain I out rs).1) : Chain I' b out pc (rs.map ByteTest.within) ∧
      ∀ n, I.size ≤ n → n < (chain I out rs).2.size → Part I' b pc n := by
  induction rs generalizing pc with
  | nil => exact False.elim (ne rfl)
  | cons range r ih =>
    cases r with
    | nil => exact ⟨.last here, fun n above below => absurd below (Nat.not_lt.mpr above)⟩
    | cons second r =>
      rw [chain_cons] at kept here ⊢
      have op : (chain I out (second :: r)).1.op = .byteRange := by cases r <;> rfl
      have after := Nat.le_trans room (chain_appends I out (second :: r)).size_le
      obtain ⟨later, covers⟩ := ih (by simp) (fun i x afterBase op got =>
        kept i x afterBase op ((Appends.push _ _).getElem? got)) (kept _ _ after op (by simp))
      refine ⟨.more here after later,
        fun n above below => .head ⟨after, _, here, .inl ⟨rfl, rfl⟩⟩ ?_⟩
      rw [Array.size_push] at below
      rcases Nat.lt_succ_iff_lt_or_eq.mp below with below | rfl
      · exact covers n above below
      · exact .refl

theorem chains_cons (I : Array Inst) (out : Int) (seq : List ByteRange)
    (r : List (List ByteRange)) : chains I out (seq :: r) =
      ((chain I out seq).2.size :: (chains ((chain I out seq).2.push (chain I out seq).1) out r).1,
        (chains ((chain I out seq).2.push (chain I out seq).1) out r).2) := rfl

theorem chains_appends (I : Array Inst) (out : Int) (ss : List (List ByteRange)) :
    Appends I (chains I out ss).2 := by
  induction ss generalizing I with
  | nil => exact .refl _
  | cons seq r ih => exact ((chain_appends I out seq).trans (.push _ _)).trans (ih _)

theorem chains_sealed (whole : Sealed I) (lt : 0 ≤ out ∧ out < I.size)
    (ss : List (List ByteRange)) : Sealed (chains I out ss).2 ∧
      ∀ h ∈ (chains I out ss).1, h < (chains I out ss).2.size := by
  induction ss generalizing I with
  | nil => exact ⟨whole, by simp [chains]⟩
  | cons seq r ih =>
    rw [chains_cons]
    have grown := (chain_appends I out seq).size_le
    obtain ⟨whole', lt'⟩ := chain_sealed whole lt seq
    have others := chains_appends ((chain I out seq).2.push (chain I out seq).1) out r
    have size_le := others.size_le
    rw [Array.size_push] at size_le
    have rest' := ih (whole'.push (lt'.mono (Nat.le_succ _))) (by rw [Array.size_push]; omega)
    refine ⟨rest'.1, fun h mem => ?_⟩
    rcases List.mem_cons.mp mem with rfl | later
    · exact size_le
    · exact rest'.2 h later

theorem chains_heads (ne : ∀ seq ∈ ss, seq ≠ []) (room : b ≤ I.size) : List.Forall₂ (fun h seq =>
        b ≤ h ∧ Chain (chains I out ss).2 b out h (seq.map ByteTest.within))
      (chains I out ss).1 ss ∧ ∀ n, I.size ≤ n → n < (chains I out ss).2.size →
      ∃ h ∈ (chains I out ss).1, b ≤ h ∧ Part (chains I out ss).2 b h n := by
  induction ss generalizing I with
  | nil => exact ⟨.nil, fun n above below => absurd below (Nat.not_lt.mpr above)⟩
  | cons seq r ih =>
    rw [chains_cons]
    have grown := (chain_appends I out seq).size_le
    have others := chains_appends ((chain I out seq).2.push (chain I out seq).1) out r
    obtain ⟨fst, covers⟩ := chain_chain (ne seq (.head _)) room
      (fun i x _ _ got => others.getElem? ((Appends.push _ _).getElem? got))
      (others.getElem? Array.getElem?_push_size)
    have later := @ih ((chain I out seq).2.push (chain I out seq).1)
      (fun seq mem => ne seq (.tail _ mem)) (by rw [Array.size_push]; omega)
    have app := Nat.le_trans room grown
    refine ⟨.cons ⟨app, fst⟩ later.1, fun n above below => ?_⟩
    rcases Nat.lt_trichotomy n (chain I out seq).2.size with pre | rfl | after
    · exact ⟨_, .head _, app, covers n above pre⟩
    · exact ⟨_, .head _, app, .refl⟩
    · obtain ⟨h, mem, part⟩ := later.2 n (by rw [Array.size_push]; omega) below
      exact ⟨h, .tail _ mem, part⟩

theorem inside_alt {n a b : Nat} (firstInside : a < n) (secondInside : b < n) :
    ({ op := .alt, out := a, out1 := b } : Inst).Inside n where
  out _ := by simpa using firstInside
  out1 _ := by simpa using secondInside
  known := by simp

theorem Writes.set (I : Array Inst) (pc : Nat) (x : Inst) :
    Writes I pc (I.setIfInBounds pc x) where
  size_le := by simp
  kept i _ other := Array.getElem?_setIfInBounds_ne other.symm

theorem ladder_cons (I : Array Inst) (pc h b c : Nat) (r : List Nat) :
    ladder I pc (h :: b :: c :: r) =
      ladder ((I.push {}).setIfInBounds pc { op := .alt, out := h, out1 := I.size })
        I.size (b :: c :: r) := rfl

theorem Appends.writes {I'' : Array Inst} (appends : Appends I I') (writes : Writes I' pc I'') :
    Writes I pc I'' where
  size_le := Nat.le_trans appends.size_le writes.size_le
  kept i le other := by
    rw [writes.kept i (Nat.lt_of_lt_of_le le appends.size_le) other, appends.kept i le]

theorem ladder_writes (I : Array Inst) (pc : Nat) (hs : List Nat) :
    Writes I pc (ladder I pc hs) := by
  induction hs generalizing I pc with
  | nil => exact ⟨Nat.le_refl _, fun _ _ _ => rfl⟩
  | cons h r ih =>
    match r with
    | [] | [_] => exact .set _ _ _
    | b :: c :: r =>
      rw [ladder_cons]
      have rung :=
        (Appends.push I {}).writes (.set (I.push {}) pc { op := .alt, out := h, out1 := I.size })
      have others :=
        ih ((I.push {}).setIfInBounds pc { op := .alt, out := h, out1 := I.size }) I.size
      have size_le := others.size_le
      simp only [Array.size_setIfInBounds, Array.size_push] at size_le
      refine ⟨by omega, fun i le other => ?_⟩
      rw [others.kept i (Nat.lt_of_lt_of_le le rung.size_le) (by omega), rung.kept i le other]

theorem ladder_sealed (whole : Sealed I) (lt : ∀ h ∈ hs, h < I.size) : Sealed (ladder I pc hs) := by
  induction hs generalizing I pc with
  | nil => exact whole
  | cons h r ih =>
    match r with
    | [] =>
      refine whole.setIfInBounds ⟨fun _ => ?_, by simp, by simp⟩
      simpa using lt h (by simp)
    | [b] => exact whole.setIfInBounds (inside_alt (lt h (by simp)) (lt b (by simp)))
    | b :: c :: r =>
      rw [ladder_cons]
      refine ih (Sealed.setIfInBounds (whole.push (Inst.inside_fail _)) ?_) ?_
      · rw [Array.size_push]
        exact inside_alt (Nat.lt_succ_of_lt (lt h (by simp))) (Nat.lt_succ_self _)
      · intro j mem
        simp only [Array.size_setIfInBounds, Array.size_push]
        exact Nat.lt_succ_of_lt (lt j (.tail _ mem))

/-- Chains do not notice that an instruction that is no byte range of theirs is written. -/
theorem Chain.of_writes {h : Nat} (ch : Chain I b out h ts) (writes : Writes I pc I')
    (app : b ≤ h) (free : ∀ x, b ≤ pc → I[pc]? = some x → x.op ≠ .byteRange) :
    Chain I' b out h ts := by
  refine ch.mono fun i x place op got => ?_
  obtain ⟨le, -⟩ := Array.getElem?_eq_some_iff.mp got
  rw [writes.kept i le ?_, got]
  rintro rfl
  refine free x ?_ got op
  rcases place with rfl | after
  · exact app
  · exact after

theorem ladder_reader (room : b ≤ I.size) (several : 2 ≤ hs.length) (lt : pc < I.size)
    (free : ∀ x, b ≤ pc → I[pc]? = some x → x.op ≠ .byteRange)
    (chains : List.Forall₂ (fun h seq => b ≤ h ∧ Chain I b out h (seq.map ByteTest.within)) hs ss) :
    Reader (ladder I pc hs) b out pc (ss.map (List.map ByteTest.within)) ∧
      ∀ n, n ∈ hs ∨ I.size ≤ n ∧ n < (ladder I pc hs).size → Part (ladder I pc hs) b pc n := by
  induction hs generalizing I pc ss with
  | nil => simp at several
  | cons h r ih =>
    have writes := ladder_writes I pc (h :: r)
    cases chains with | cons fst chains =>
    match r, chains with
    | [], _ => simp at several
    | [second], .cons last .nil =>
      have here : (ladder I pc [h, second])[pc]? =
          some { op := .alt, out := h, out1 := second } := by simp [ladder, lt]
      refine ⟨.pair here fst.1 last.1 (fst.2.of_writes writes fst.1 free)
        (last.2.of_writes writes last.1 free), fun n place => ?_⟩
      rcases place with mem | ⟨above, below⟩
      · rcases List.mem_pair.mp mem with rfl | rfl
        · exact .single ⟨fst.1, _, here, .inr ⟨rfl, .inl rfl⟩⟩
        · exact .single ⟨last.1, _, here, .inr ⟨rfl, .inr rfl⟩⟩
      · simp [ladder] at below
        omega
    | second :: c :: r, chains =>
      -- the next rung is an instruction that was appended and fails until it is written
      have rung :=
        (Appends.push I {}).writes (.set (I.push {}) pc { op := .alt, out := h, out1 := I.size })
      have others := ladder_writes
        ((I.push {}).setIfInBounds pc { op := .alt, out := h, out1 := I.size }) I.size
        (second :: c :: r)
      have length_eq := chains.length_eq
      have here : (ladder I pc (h :: second :: c :: r))[pc]? =
          some { op := .alt, out := h, out1 := I.size } := by
        rw [ladder_cons, others.kept pc (Nat.lt_of_lt_of_le lt rung.size_le) (by omega),
          Array.getElem?_setIfInBounds_self_of_lt (by simp; omega)]
      obtain ⟨later, covers⟩ :=
        ih (Nat.le_trans room rung.size_le) (by simp) (show I.size < _ by simp)
        (fun x _ got => by
          rw [Array.getElem?_setIfInBounds_ne (by omega), Array.getElem?_push_size] at got
          cases got
          simp) (chains.imp fun h seq ch => ⟨ch.1, ch.2.of_writes rung ch.1 free⟩)
      refine ⟨.choice here fst.1 lt room
        (fun none => by simp [List.map_eq_nil_iff.mp none] at length_eq)
        (fst.2.of_writes writes fst.1 free) later, fun n place => ?_⟩
      by_cases isHead : h = n
      · subst isHead
        exact .single ⟨fst.1, _, here, .inr ⟨rfl, .inl rfl⟩⟩
      refine .head ⟨room, _, here, .inr ⟨rfl, .inr rfl⟩⟩ ?_
      by_cases isRung : I.size = n
      · subst isRung
        exact .refl
      · refine covers n (place.imp (fun mem => ?_) fun bounds => ⟨?_, bounds.2⟩)
        · exact (List.mem_cons.mp mem).resolve_left (Ne.symm isHead)
        · simp only [Array.size_setIfInBounds, Array.size_push]
          omega

theorem products_single (I : Array Inst) (pc : Nat) (out : Int) (seq : List ByteRange) :
    products I pc out [seq] = (chain I out seq).2.setIfInBounds pc (chain I out seq).1 := rfl

theorem products_several (I : Array Inst) (pc : Nat) (out : Int)
    (a b : List ByteRange) (r : List (List ByteRange)) :
    products I pc out (a :: b :: r) =
      ladder (chains I out (a :: b :: r)).2 pc (chains I out (a :: b :: r)).1 := rfl

theorem products_writes (I : Array Inst) (pc : Nat) (out : Int) (ss : List (List ByteRange)) :
    Writes I pc (products I pc out ss) := by
  match ss with
  | [] => exact .set _ _ _
  | [seq] => exact (chain_appends I out seq).writes (.set _ _ _)
  | a :: b :: r =>
    rw [products_several]
    exact (chains_appends I out _).writes (ladder_writes _ _ _)

theorem products_sealed (whole : Sealed I) (lt : 0 ≤ out ∧ out < I.size) (pc : Nat)
    (ss : List (List ByteRange)) : Sealed (products I pc out ss) := by
  match ss with
  | [] => exact whole.setIfInBounds (Inst.inside_fail _)
  | [seq] =>
    obtain ⟨whole', lt'⟩ := chain_sealed whole lt seq
    exact whole'.setIfInBounds lt'
  | a :: b :: r =>
    obtain ⟨whole', heads⟩ := chains_sealed whole lt (a :: b :: r)
    exact ladder_sealed whole' heads

theorem products_reader (ne : ∀ seq ∈ ss, seq ≠ []) (room : b ≤ I.size) (pre : pc < b) :
    Reader (products I pc out ss) b out pc (ss.map (List.map ByteTest.within)) ∧
      ∀ n, I.size ≤ n → n < (products I pc out ss).size → Part (products I pc out ss) b pc n := by
  have lt : pc < I.size := Nat.lt_of_lt_of_le pre room
  match ss with
  | [] =>
    refine ⟨.fail (Array.getElem?_setIfInBounds_self_of_lt lt), fun n above below => ?_⟩
    simp [products] at below
    omega
  | [seq] =>
    have grown := (chain_appends I out seq).size_le
    rw [products_single, Array.size_setIfInBounds]
    obtain ⟨ch, covers⟩ := chain_chain (ne seq (.head _)) room
      (fun i x after _ got => by rw [Array.getElem?_setIfInBounds_ne (by omega), got])
      (Array.getElem?_setIfInBounds_self_of_lt (Nat.lt_of_lt_of_le lt grown))
    exact ⟨.chain ch, covers⟩
  | a :: second :: r =>
    have grown := (chains_appends I out (a :: second :: r)).size_le
    obtain ⟨heads, covers⟩ := @chains_heads I b out _ ne room
    have lt' := Nat.lt_of_lt_of_le lt grown
    obtain ⟨reader, covers'⟩ := @ladder_reader _ b pc out _ _ (Nat.le_trans room grown)
      (by simp [chains_cons]) lt' (fun _ after => by omega) heads
    rw [products_several]
    refine ⟨reader, fun n above below => ?_⟩
    by_cases chained : n < (chains I out (a :: second :: r)).2.size
    · obtain ⟨h, mem, app, part⟩ := covers n above chained
      refine (covers' h (.inl mem)).trans (part.mono fun i x place got => ?_)
      obtain ⟨le, -⟩ := Array.getElem?_eq_some_iff.mp got
      rw [(ladder_writes _ pc _).kept i le (by omega), got]
    · exact covers' n (.inr ⟨by omega, below⟩)

end Lowering

end Rematch
