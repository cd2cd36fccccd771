import Rematch.Proofs.Pattern.Compiled
import Rematch.Proofs.Pattern.Stacks

/-!
Groups of patterns. Reading numbers the groups in the order of their opening and drops none, but
simplification drops what is repeated at most zero times, with the groups in it.
-/

namespace Rematch

open List Token

namespace Scanner

open Unicode (CodeSet)

/-! Case folding changes what a set holds, but not where it ends. -/

section

variable (fc : Bool)

theorem namedSet_fold (w : Bytes) :
    (namedSet fc w).map (·.map (·.2)) = (namedSet false w).map (·.map (·.2)) := by
  unfold namedSet
  split
  · split
    · rfl
    · dsimp only
      split <;> rfl
  · rfl

theorem property_fold (w : Bytes) :
    (property fc w).map (·.map (·.2)) = (property false w).map (·.map (·.2)) := by
  unfold property
  split
  · split
    · split
      · rfl
      · dsimp only
        split <;> rfl
    · rfl
  · rfl

theorem letterSet_fold (w : Bytes) :
    (letterSet fc w).map (·.2) = (letterSet false w).map (·.2) := by
  unfold letterSet
  split
  · simp [Option.map_map, Function.comp_def]
  · rfl

theorem memberRange_fold (w inp : Bytes) :
    (memberRange fc w inp).map (·.2) = (memberRange false w inp).map (·.2) := by
  unfold memberRange
  split
  · rfl
  · split
    · split
      · rfl
      · split
        · rfl
        · split <;> rfl
    · rfl

theorem setItem_fold (wh w : Bytes) :
    (setItem fc wh w).map (·.2) = (setItem false wh w).map (·.2) := by
  have named := namedSet_fold fc w
  have property := property_fold fc w
  have letter := letterSet_fold fc w
  unfold setItem
  match fst : namedSet fc w, snd : namedSet false w with
  | .error _, .error _ | .ok (some _), .ok (some _) => simpa [fst, snd, Except.map] using named
  | .error _, .ok _ | .ok _, .error _ | .ok none, .ok (some _) | .ok (some _), .ok none =>
    simp [fst, snd, Except.map] at named
  | .ok none, .ok none =>
  match fst' : Scanner.property fc w, snd' : Scanner.property false w with
  | .error _, .error _ | .ok (some _), .ok (some _) => simpa [fst', snd', Except.map] using property
  | .error _, .ok _ | .ok _, .error _ | .ok none, .ok (some _) | .ok (some _), .ok none =>
    simp [fst', snd', Except.map] at property
  | .ok none, .ok none =>
  match fst'' : letterSet fc w, snd'' : letterSet false w with
  | none, none => exact memberRange_fold fc wh w
  | some _, some _ => simpa [fst'', snd'', Except.map] using letter
  | none, some _ | some _, none => simp [fst'', snd''] at letter

theorem setItems_fold (wh : Bytes) (n : Nat) (isFirst : Bool) (cs cs' : CodeSet) (w : Bytes) :
    (setItems fc wh n isFirst cs w).map (·.2) = (setItems false wh n isFirst cs' w).map (·.2) := by
  induction n generalizing isFirst cs cs' w with
  | zero => rfl
  | succ n ih =>
    have item := setItem_fold fc wh w
    unfold setItems
    split
    · rfl
    · cases fst : setItem fc wh w <;> cases snd : setItem false wh w
      · simpa [fst, snd, Except.map] using item
      · simp [fst, snd, Except.map] at item
      · simp [fst, snd, Except.map] at item
      · obtain eq : _ = _ := by simpa [fst, snd, Except.map] using item
        dsimp only
        rw [eq]
        exact ih _ _ _ _

theorem bracketSet_fold (w : Bytes) :
    (bracketSet fc w).map (·.2) = (bracketSet false w).map (·.2) := by
  unfold bracketSet
  dsimp only
  generalize (if Bytes.peek (w.drop 1) = '^' then _ else _ : Bytes) = body
  have items := setItems_fold fc w (w.length + 1) true [] [] body
  cases fst : setItems fc w (w.length + 1) true [] body <;>
    cases snd : setItems false w (w.length + 1) true [] body <;>
    simp_all [Except.map]

end

end Scanner

namespace Token

/-- The name of the capturing group that a token begins. -/
def captures : Token → List String
  | .openCapture name => [name]
  | _ => []

def outline (scanned : Scanned Token) : Except SyntaxError (List String × Bytes) :=
  scanned.map fun (token, rest) => (token.captures, rest)

theorem outline_backslash (m : Mode) (w : Bytes) :
    outline (backslash m w) = outline (backslash {} w) := by
  unfold backslash
  split
  case h_7 =>
    have property := Scanner.property_fold m.foldCase w
    have letter := Scanner.letterSet_fold m.foldCase w
    match fst : Scanner.property m.foldCase w, snd : Scanner.property false w with
    | .error _, .error _ => simpa [fst, snd, Except.map, outline] using property
    | .ok (some _), .ok (some _) => simpa [fst, snd, Except.map, outline, captures] using property
    | .error _, .ok _ | .ok _, .error _ | .ok none, .ok (some _) | .ok (some _), .ok none =>
      simp [fst, snd, Except.map] at property
    | .ok none, .ok none =>
    match fst' : Scanner.letterSet m.foldCase w, snd' : Scanner.letterSet false w with
    | none, none => rfl
    | some _, some _ => simpa [snd, snd', fst', Except.map, outline, captures] using letter
    | none, some _ | some _, none => simp [fst', snd'] at letter
  all_goals rfl

theorem outline_switches (wh : Bytes) (n : Nat) (m m' : Mode) (isOn sawLetter : Bool) (w : Bytes) :
    outline (switches wh n m isOn sawLetter w) = outline (switches wh n m' isOn sawLetter w) := by
  induction n generalizing m m' isOn sawLetter w with
  | zero => rfl
  | succ n ih =>
    cases w with
    | nil => rfl
    | cons b r =>
      unfold switches
      split
      · rfl
      · next c tl _ =>
        dsimp only
        have switched : (switch? m (Char.ofNat c) isOn).isSome =
            (switch? m' (Char.ofNat c) isOn).isSome := by
          unfold switch?
          split <;> rfl
        cases fst : switch? m (Char.ofNat c) isOn <;> cases snd : switch? m' (Char.ofNat c) isOn
        · dsimp only
          split
          · exact ih _ _ _ _ _
          · split
            · split <;> rfl
            · rfl
        · simp [fst, snd] at switched
        · simp [fst, snd] at switched
        · exact ih _ _ _ _ _

theorem outline_specialGroup (m : Mode) (w : Bytes) :
    outline (specialGroup m w) = outline (specialGroup {} w) := by
  unfold specialGroup
  split
  · rfl
  split
  · rfl
  · exact outline_switches _ _ _ _ _ _ _

theorem outline_repeated (m : Mode) (k : Repetition) (w : Bytes) :
    outline (.ok (repeated m k w)) = outline (.ok (repeated {} k w)) := by
  unfold repeated
  split <;> rfl

theorem outline_scan (m : Mode) (w : Bytes) : outline (scan m w) = outline (scan {} w) := by
  unfold scan
  dsimp only
  split
  case h_1 =>
    split
    · exact outline_specialGroup m w
    · rfl
  case h_6 => cases m.dotNewline <;> rfl
  case h_7 =>
    have brk := Scanner.bracketSet_fold m.foldCase w
    cases fst : Scanner.bracketSet m.foldCase w <;> cases snd : Scanner.bracketSet false w <;>
      simp_all [Except.map, outline, captures]
  case h_8 | h_9 | h_10 => exact outline_repeated m _ _
  case h_11 =>
    unfold brace
    split
    · rfl
    split
    · rfl
    · exact outline_repeated m _ _
  case h_12 => exact outline_backslash m w
  all_goals rfl

/-- The names of the capturing groups of the rest of a pattern, in the order of their opening. -/
def groupsFrom : Nat → Bytes → List String
  | 0, _ => []
  | _, [] => []
  | fuel + 1, input =>
    match scan {} input with
    | .error _ => []
    | .ok (token, rest) => token.captures ++ groupsFrom fuel rest

/-- The names of the capturing groups of a pattern, in the order of their opening; a group without a
name has the empty one. -/
def declaredGroups (pattern : Bytes) : List String := groupsFrom pattern.length pattern

theorem groupsFrom_step {m : Mode} {token : Token} {n : Nat} {w r : Bytes}
    (ne : w ≠ []) (scanned : scan m w = .ok (token, r)) :
    groupsFrom (n + 1) w = token.captures ++ groupsFrom n r := by
  have eq := outline_scan m w
  rw [groupsFrom.eq_3 _ _ ne]
  cases got : scan {} w with
  | error error => simp [scanned, got, outline, Except.map] at eq
  | ok res =>
    obtain ⟨captures_eq, rfl⟩ : token.captures = res.1.captures ∧ r = res.2 := by
      simpa [scanned, got, outline, Except.map] using eq
    rw [captures_eq]

def numbered (least : Nat) (names : List String) : List (Nat × String) :=
  (names.zipIdx least).map fun (name, number) => (number, name)

theorem numbered_append (m : Nat) (a b : List String) :
    numbered m (a ++ b) = numbered m a ++ numbered (m + a.length) b := by
  rw [numbered, zipIdx_append, map_append]
  rfl

theorem mem_numbered {m n : Nat} {names : List String} {nm : String} :
    (n, nm) ∈ numbered m names ↔ ∃ i, names[i]? = some nm ∧ n = m + i := by
  simp only [numbered, mem_map, mem_zipIdx_iff_le_and_getElem?_sub, Prod.exists,
    Prod.mk.injEq]
  constructor
  · rintro ⟨_, _, ⟨le, got⟩, rfl, rfl⟩
    exact ⟨_, got, by omega⟩
  · rintro ⟨i, got, rfl⟩
    exact ⟨nm, m + i, ⟨by omega, by rwa [Nat.add_sub_cancel_left]⟩, rfl, rfl⟩

end Token

namespace Expr

variable {e o : Expr} {gr : Nat × String}

theorem mem_groupsOf {l : List Expr} : gr ∈ groupsOf l ↔ ∃ e ∈ l, gr ∈ e.groups := by
  induction l with
  | nil => simp [groupsOf]
  | cons a r ih => simp [groupsOf, ih]

theorem groups_of_isUnit (isUnit : e.isUnit = true) : e.groups = [] := by
  cases e <;> simp [Expr.isUnit] at isUnit <;> simp [groups]

theorem groups_of_sameUnit (eq : sameUnit e o = true) : e.groups = [] ∧ o.groups = [] := by
  unfold sameUnit at eq
  split at eq
  case h_5 => simp at eq
  all_goals simp [groups]

theorem groups_of_sameLeadingPart (eq : sameLeadingPart e o = true) :
    e.groups = [] ∧ o.groups = [] := by
  unfold sameLeadingPart at eq
  split at eq
  · simp only [Bool.and_eq_true] at eq
    simpa [groups] using groups_of_sameUnit eq.2
  · exact groups_of_sameUnit eq

theorem groups_nameSet (e : Expr) : e.nameSet.groups = e.groups := by
  unfold nameSet
  split
  · split
    · rfl
    split
    · rfl
    · rfl
  · rfl

theorem groups_toLiteral (m : Mode) (e : Expr) : (Parser.toLiteral m e).groups = e.groups := by
  unfold Parser.toLiteral
  split
  · split
    · rfl
    split
    · rfl
    · rfl
  · split
    · rfl
    · rfl
  · rfl

theorem detects_groups (gr : Nat × String) : Detects (fun _ => False) (gr ∈ ·.groups) where
  empty := by simp [groups]
  literal := by simp [groups]
  concat parts := by rw [groups, mem_groupsOf]
  alternate choices := by rw [groups, mem_groupsOf]
  join e o isUnit isUnit' := by
    simp [groups_of_isUnit (isUnit_join isUnit), groups_of_isUnit isUnit, groups_of_isUnit isUnit']
  name e := by rw [groups_nameSet]
  write m e := by rw [groups_toLiteral]
  alike e o eq := by
    obtain ⟨fst, snd⟩ := groups_of_sameLeadingPart eq
    rw [fst, snd]

end Expr

namespace Parser

theorem traces_groups (gr : Nat × String) :
    Traces (fun _ => False) (· = gr) (gr ∈ ·.groups) where
  toDetects := Expr.detects_groups gr
  capture n nm body := by rw [Expr.groups, mem_cons, eq_comm]
  repetition k lazy body := by rw [Expr.groups]

theorem Accepts.groups_eq {u v : Parser} {token : Token} (accepts : Accepts u token v) :
    v.groups = u.groups + token.captures.length := by
  cases accepts with
  | literal gains => exact gains.groups_eq
  | leaf leaf gains => cases token <;> simp [leaf?] at leaf <;> exact gains.groups_eq
  | openCapture nm => rfl
  | openGroup m => rfl
  | close settled stack_eq gains => exact gains.groups_eq.trans settled.groups_eq
  | bar gains => exact gains.groups_eq
  | switchMode m => rfl
  | repetition stack_eq => rfl

theorem adds_groups (p : Parser) (token : Token) (gr : Nat × String) :
    Adds (· = gr) (gr ∈ ·.groups) p token ↔ gr ∈ numbered (p.groups + 1) token.captures := by
  cases token with
  | openCapture nm => simp [Adds, numbered, captures, eq_comm]
  | _ => simp [Adds, leaf?, numbered, captures, literalIn, Expr.groups]

theorem readTokens_groups {pat w : Bytes} {n : Nat} {rep : Option Bytes} {p f : Parser}
    (read : readTokens pat n rep p w = .ok f) (gr : Nat × String) :
    StackHolds (· = gr) (gr ∈ ·.groups) f.stack ↔
      StackHolds (· = gr) (gr ∈ ·.groups) p.stack ∨
        gr ∈ numbered (p.groups + 1) (groupsFrom n w) := by
  induction n generalizing rep p w with
  | zero =>
    cases read
    simp [groupsFrom, numbered]
  | succ n ih =>
    by_cases ne : w = []
    · subst ne
      cases read
      simp [groupsFrom, numbered]
    · obtain ⟨token, r, nx, _, scan, acc, read⟩ := readTokens_cases ne read
      have accepts := accepts_of_accept acc
      rw [ih read, accepts.holds_iff (traces_groups gr), adds_groups,
        groupsFrom_step ne scan, numbered_append, mem_append,
        accepts.groups_eq, or_assoc, Nat.add_right_comm]

end Parser

theorem Expr.mem_groups_iff {pat : Bytes} {e : Expr} (parsed : Expr.parse pat = .ok e)
    (gr : Nat × String) : gr ∈ e.groups ↔ gr ∈ numbered 1 (declaredGroups pat) := by
  obtain ⟨p, f, read, fin, stack_eq⟩ := Parser.parse_eq_ok parsed
  have settled := (Parser.finishGroup_gains fin).holds_iff (Parser.traces_groups gr)
  rw [Parser.readTokens_groups read, stack_eq] at settled
  simpa [Parser.StackHolds, Parser.ItemHolds, declaredGroups] using settled

namespace Expr

mutual

/-- The capturing groups that are not repeated at most zero times, nor inside something that is. -/
def keptGroups : Expr → List (Nat × String)
  | .capture group name body => (group, name) :: body.keptGroups
  | .repetition kind _ body =>
    match kind with
    | .counted _ (some 0) => []
    | _ => body.keptGroups
  | .concat parts => keptGroupsOf parts
  | .alternate choices => keptGroupsOf choices
  | _ => []

def keptGroupsOf : List Expr → List (Nat × String)
  | [] => []
  | first :: rest => first.keptGroups ++ keptGroupsOf rest

end

variable {gr : Nat × String}

theorem groups_repeatBody (k : Repetition) (lazy : Bool) (body : Expr) :
    (repeatBody k lazy body).groups = body.groups := by
  unfold repeatBody
  split
  · rfl
  · split
    · rfl
    · rw [groups]
  · rw [groups]

theorem mem_groups_optionalCopies (lazy : Bool) (body : Expr) (n : Nat) :
    gr ∈ (optionalCopies lazy body n).groups ↔ gr ∈ body.groups := by
  induction n with
  | zero => rw [optionalCopies, groups_repeatBody]
  | succ n ih =>
    rw [optionalCopies, groups_repeatBody, groups, mem_groupsOf]
    simp [ih]

theorem mem_groups_writeOut (m : Nat) {most : Option Nat} (several : most ≠ some 0) (lazy : Bool)
    (body : Expr) : gr ∈ (writeOut m most lazy body).groups ↔ gr ∈ body.groups := by
  unfold writeOut
  split
  · rw [groups_repeatBody]
  · rw [groups_repeatBody]
  · rw [groups, mem_groupsOf]
    simp [groups_repeatBody, or_and_right, exists_or]
  · next lo most =>
    have pos : most ≠ 0 := fun zero => several (congrArg some zero)
    split
    · rfl
    dsimp only
    split
    · next none => rw [if_pos (by omega), headD_cons, mem_groups_optionalCopies]
    · next some =>
      rw [groups, mem_groupsOf]
      split <;> simp [mem_groups_optionalCopies, some, or_and_right, exists_or]

mutual

theorem mem_groups_simplify : (e : Expr) → (gr ∈ e.simplify.groups ↔ gr ∈ e.keptGroups)
  | .capture n nm body => by
    rw [simplify, groups, keptGroups, mem_cons, mem_cons, mem_groups_simplify body]
  | .repetition k lazy body => by
    have lt := mem_groups_simplify body
    match k with
    | .counted m (some 0) => simp [simplify, keptGroups, groups]
    | .counted m (some (most + 1)) =>
      rw [simplify, keptGroups, if_neg (by simp), mem_groups_writeOut m (by simp), lt]
      simp
    | .counted m none =>
      rw [simplify, keptGroups, if_neg (by simp), mem_groups_writeOut m (by simp), lt]
      simp
    | .star | .plus | .quest => simp [simplify, keptGroups, groups_repeatBody, lt]
  | .concat parts => by rw [simplify, groups, keptGroups, mem_groupsOf_simplifyAll parts]
  | .alternate choices => by rw [simplify, groups, keptGroups, mem_groupsOf_simplifyAll choices]
  | .empty | .literal _ _ | .set _ | .any | .anyButNewline | .assertion _ => by
    simp [simplify, groups, keptGroups]

theorem mem_groupsOf_simplifyAll : (l : List Expr) →
    (gr ∈ groupsOf (simplifyAll l) ↔ gr ∈ keptGroupsOf l)
  | [] => by simp [simplifyAll, groupsOf, keptGroupsOf]
  | a :: r => by
    rw [simplifyAll, groupsOf, keptGroupsOf, mem_append, mem_append,
      mem_groups_simplify a, mem_groupsOf_simplifyAll r]

end

def noteName (names : Array String) (group : Nat × String) : Array String :=
  (if names.size ≤ group.1 then names ++ Array.replicate (group.1 + 1 - names.size) ""
    else names).setIfInBounds group.1 group.2

theorem groupNames_eq (e : Expr) : e.groupNames = (e.groups.foldl noteName #[""]).toList := rfl

theorem size_noteName (names : Array String) (gr : Nat × String) :
    (noteName names gr).size = max names.size (gr.1 + 1) := by
  unfold noteName
  rw [Array.size_setIfInBounds]
  split
  · rw [Array.size_append, Array.size_replicate]
    omega
  · omega

theorem getD_noteName (names : Array String) (gr : Nat × String) (n : Nat) :
    (noteName names gr)[n]?.getD "" =
      if n = gr.1 then gr.2 else names[n]?.getD "" := by
  have size := size_noteName names gr
  unfold noteName at size ⊢
  rw [Array.size_setIfInBounds] at size
  rw [Array.getElem?_setIfInBounds]
  by_cases here : n = gr.1
  · rw [if_pos here, if_pos here.symm, if_pos (by omega), Option.getD_some]
  · rw [if_neg here, if_neg (Ne.symm here)]
    split
    · by_cases lt : n < names.size
      · rw [Array.getElem?_append_left lt]
      · rw [Array.getElem?_append_right (by omega), Array.getElem?_replicate,
          Array.getElem?_eq_none (by omega)]
        split <;> rfl
    · rfl

theorem size_foldl_noteName (gs : List (Nat × String)) (names : Array String) :
    (gs.foldl noteName names).size = max names.size ((gs.map fun gr => gr.1 + 1).foldr max 0) := by
  induction gs generalizing names with
  | nil => simp
  | cons gr gs ih => rw [foldl_cons, ih, size_noteName, map_cons, foldr_cons, max_assoc]

theorem getD_foldl_noteName {gs : List (Nat × String)}
    (unique : ∀ n nm nm', (n, nm) ∈ gs → (n, nm') ∈ gs → nm = nm')
    (names : Array String) (n : Nat) :
    (∀ nm, (n, nm) ∈ gs → (gs.foldl noteName names)[n]?.getD "" = nm) ∧
      ((∀ nm, (n, nm) ∉ gs) → (gs.foldl noteName names)[n]?.getD "" = names[n]?.getD "") := by
  induction gs generalizing names with
  | nil => simp
  | cons gr gs ih =>
    have unique' (n : Nat) (nm nm' : String) (mem : (n, nm) ∈ gs)
        (mem' : (n, nm') ∈ gs) : nm = nm' :=
      unique n nm nm' (.tail _ mem) (.tail _ mem')
    obtain ⟨got, absent⟩ := ih unique' (noteName names gr)
    rw [foldl_cons]
    constructor
    · intro nm mem
      by_cases later : ∃ nm', (n, nm') ∈ gs
      · obtain ⟨nm', mem'⟩ := later
        rw [got nm' mem']
        exact unique n nm' nm (.tail _ mem') mem
      · obtain rfl : (n, nm) = gr := (mem_cons.mp mem).resolve_right fun mem' => later ⟨nm, mem'⟩
        rw [absent fun nm' mem' => later ⟨nm', mem'⟩, getD_noteName, if_pos rfl]
    · intro none
      rw [absent fun nm' mem' => none nm' (.tail _ mem'), getD_noteName, if_neg]
      rintro rfl
      exact none gr.2 (.head _)

/-- The number of the last kept group; zero if there is none. -/
def lastKept (expr : Expr) : Nat := (expr.keptGroups.map (·.1)).foldr max 0

def keeps (expr : Expr) (number : Nat) : Bool := expr.keptGroups.any (·.1 == number)

/-- The names of the declared groups up to the last kept one, with an empty name for each group that
is not kept. -/
def keptNames (expr : Expr) (declared : List String) : List String :=
  (declared.take expr.lastKept).mapIdx fun index name => if expr.keeps (index + 1) then name else ""

mutual

theorem keptGroups_subset : (e : Expr) → e.keptGroups ⊆ e.groups
  | .capture n nm body => by
    rw [keptGroups, groups]
    exact cons_subset_cons _ (keptGroups_subset body)
  | .repetition k lazy body => by
    have lt := keptGroups_subset body
    match k with
    | .counted m (some 0) => simp [keptGroups]
    | .counted m (some (most + 1)) | .counted m none | .star | .plus | .quest =>
      simpa [keptGroups, groups] using lt
  | .concat parts => by
    rw [keptGroups, groups]
    exact keptGroupsOf_subset parts
  | .alternate choices => by
    rw [keptGroups, groups]
    exact keptGroupsOf_subset choices
  | .empty | .literal _ _ | .set _ | .any | .anyButNewline | .assertion _ => by simp [keptGroups]

theorem keptGroupsOf_subset : (l : List Expr) → keptGroupsOf l ⊆ groupsOf l
  | [] => by simp [keptGroupsOf]
  | a :: r => by
    rw [keptGroupsOf, groupsOf]
    exact append_subset.mpr ⟨subset_append_of_subset_left _ (keptGroups_subset a),
      subset_append_of_subset_right _ (keptGroupsOf_subset r)⟩

end

theorem foldr_max_le_iff {l : List Nat} {m : Nat} : l.foldr max 0 ≤ m ↔ ∀ n ∈ l, n ≤ m := by
  induction l with
  | nil => simp
  | cons a r ih => simp [ih]

theorem length_groupNames_simplify (e : Expr) : e.simplify.groupNames.length = e.lastKept + 1 := by
  rw [groupNames_eq, Array.length_toList, size_foldl_noteName]
  refine eq_of_forall_ge_iff fun m => ?_
  have kept : e.lastKept ≤ m - 1 ↔ ∀ gr ∈ e.simplify.groups, gr.1 ≤ m - 1 := by
    simp [lastKept, foldr_max_le_iff, mem_groups_simplify]
  rw [max_le_iff, foldr_max_le_iff, forall_mem_map]
  constructor
  · rintro ⟨pos, each⟩
    have := kept.mpr fun gr mem => Nat.le_sub_one_of_lt (each gr mem)
    change 1 ≤ m at pos
    omega
  · intro enough
    refine ⟨show 1 ≤ m by omega, fun gr mem => ?_⟩
    have := kept.mp (by omega) gr mem
    omega

variable {e : Expr}

theorem keeps_iff {n : Nat} : e.keeps n = true ↔ ∃ nm, (n, nm) ∈ e.keptGroups := by
  simp only [keeps, any_eq_true, beq_iff_eq, Prod.exists]
  constructor
  · rintro ⟨_, nm, mem, rfl⟩
    exact ⟨nm, mem⟩
  · rintro ⟨nm, mem⟩
    exact ⟨n, nm, mem, rfl⟩

theorem keptNames_of_all {declared : List String}
    (all : ∀ n, 0 < n → n ≤ declared.length → e.keeps n = true) :
    e.keptNames declared = declared := by
  have enough : declared.length ≤ e.lastKept := by
    rcases Nat.eq_zero_or_pos declared.length with none | some
    · omega
    · obtain ⟨nm, mem⟩ := keeps_iff.mp (all _ some (Nat.le_refl _))
      exact foldr_max_le_iff.mp (Nat.le_refl e.lastKept) _ (mem_map.mpr ⟨_, mem, rfl⟩)
  rw [keptNames, take_of_length_le enough]
  refine ext_getElem? fun i => ?_
  rw [getElem?_mapIdx]
  cases got : declared[i]? with
  | none => rfl
  | some nm =>
    have lt := (List.getElem?_eq_some_iff.mp got).1
    rw [Option.map_some, if_pos (all (i + 1) (by omega) lt)]

section Declared

variable {e : Expr} {declared : List String}
  (declares : ∀ gr, gr ∈ e.groups ↔ gr ∈ Token.numbered 1 declared)

include declares

theorem declared_of_kept {n : Nat} {nm : String} (kept : (n, nm) ∈ e.keptGroups) :
    0 < n ∧ declared[n - 1]? = some nm := by
  have mem := (declares _).mp (keptGroups_subset e kept)
  rw [mem_numbered] at mem
  obtain ⟨i, got, rfl⟩ := mem
  exact ⟨by omega, by simpa using got⟩

theorem lastKept_le : e.lastKept ≤ declared.length := by
  refine foldr_max_le_iff.mpr (forall_mem_map.mpr fun (n, nm) kept => ?_)
  obtain ⟨pos, got⟩ := declared_of_kept declares kept
  have := (List.getElem?_eq_some_iff.mp got).1
  omega

theorem groupNames_simplify : e.simplify.groupNames = "" :: e.keptNames declared := by
  have length := length_groupNames_simplify e
  have le := lastKept_le declares
  have unique (n : Nat) (nm nm' : String) (mem : (n, nm) ∈ e.simplify.groups)
      (mem' : (n, nm') ∈ e.simplify.groups) : nm = nm' := by
    have fst := (declared_of_kept declares ((mem_groups_simplify e).mp mem)).2
    have snd := (declared_of_kept declares ((mem_groups_simplify e).mp mem')).2
    exact Option.some.inj (fst.symm.trans snd)
  have noted := getD_foldl_noteName unique #[""]
  have value {n : Nat} (lt : n < e.lastKept + 1) :
      e.simplify.groupNames[n]? =
        some ((e.simplify.groups.foldl noteName #[""])[n]?.getD "") := by
    rw [groupNames_eq, Array.length_toList] at length
    rw [groupNames_eq, Array.getElem?_toList, Array.getElem?_eq_getElem (by omega)]
    rfl
  refine ext_getElem? fun n => ?_
  cases n with
  | zero =>
    rw [value (by omega), (noted 0).2]
    · rfl
    · intro nm mem
      have := (declared_of_kept declares ((mem_groups_simplify e).mp mem)).1
      omega
  | succ i =>
    rw [getElem?_cons_succ, keptNames, getElem?_mapIdx]
    by_cases lt : i < e.lastKept
    · rw [value (by omega), getElem?_take_of_lt lt]
      obtain ⟨nm, got⟩ : ∃ nm, declared[i]? = some nm := ⟨_, getElem?_eq_getElem (by omega)⟩
      rw [got, Option.map_some]
      congr 1
      split
      · next kept =>
        obtain ⟨nm', mem⟩ := keeps_iff.mp kept
        have got' := (declared_of_kept declares mem).2
        rw [Nat.add_sub_cancel, got] at got'
        rw [(noted _).1 nm' ((mem_groups_simplify e).mpr mem), Option.some.inj got']
      · next dropped =>
        rw [(noted _).2]
        · rfl
        · intro nm' mem
          exact dropped (keeps_iff.mpr ⟨nm', (mem_groups_simplify e).mp mem⟩)
    · rw [getElem?_eq_none (by omega), getElem?_eq_none (by simp; omega)]
      rfl

end Declared

end Expr

theorem Overlay.le_of_missingGroup? {overlay : Overlay} {gs gr : Nat}
    (got : overlay.missingGroup? gs = some gr) : gs ≤ gr := by
  obtain ⟨⟨pc, es⟩, -, got⟩ := exists_of_findSome?_eq_some got
  obtain ⟨ext, fst, rfl⟩ := Option.map_eq_some_iff.mp got
  have checked := find?_some fst
  simp only [Bool.and_eq_true, decide_eq_true_eq] at checked
  exact checked.2

namespace CompiledPattern

variable {pattern encoded : Bytes}

/-- What is known of the groups of a pattern: the expression has all that are declared, the names
are those of the groups that are not repeated at most zero times, and a backreference is refused
only if its group and all later ones are. -/
theorem compile_groups {encoded : Bytes} {expr : Expr}
    (encode_eq : Encoding.encode pattern = .ok encoded)
    (parse_eq : Expr.parse encoded = .ok expr) :
    (∀ group, group ∈ expr.groups ↔ group ∈ Token.numbered 1 (Token.declaredGroups encoded)) ∧
    (∀ compiled, compile pattern = .ok compiled →
      compiled.names = "" :: expr.keptNames (Token.declaredGroups encoded) ∧
      ((∀ number, 0 < number → number ≤ (Token.declaredGroups encoded).length →
          expr.keeps number = true) →
        compiled.names = "" :: Token.declaredGroups encoded)) ∧
    (∀ group groups, compile pattern = .error (.missingGroup group groups) →
      groups = expr.lastKept ∧ ∀ number, group ≤ number → expr.keeps number = false) := by
  have declares := Expr.mem_groups_iff parse_eq
  have names_eq := Expr.groupNames_simplify declares
  refine ⟨declares, fun compiled found => ?_, fun group groups refused => ?_⟩
  · obtain ⟨encoded', expr', made⟩ := exists_made found
    cases encode_eq.symm.trans made.encode_eq
    cases parse_eq.symm.trans made.parse_eq
    rw [made.names_eq, names_eq]
    exact ⟨rfl, fun all => by rw [Expr.keptNames_of_all all]⟩
  · have length := Expr.length_groupNames_simplify expr
    simp only [compile, encode_eq, parse_eq] at refused
    split at refused
    · simp at refused
    unfold ofExpr at refused
    dsimp only at refused
    split at refused
    · simp at refused
    split at refused
    · next missing =>
      obtain ⟨rfl, rfl⟩ : _ = group ∧ _ = groups := by simpa using refused
      have beyond := Overlay.le_of_missingGroup? missing
      refine ⟨by rw [length]; rfl, fun number later => Bool.eq_false_iff.mpr fun kept => ?_⟩
      obtain ⟨name, listed⟩ := Expr.keeps_iff.mp kept
      have := Expr.foldr_max_le_iff.mp (Nat.le_refl expr.lastKept) number
        (mem_map.mpr ⟨_, listed, rfl⟩)
      omega
    · simp at refused

/-- Three groups, of which the second is never taken, and the third again. -/
def skipped : Bytes := Bytes.ofString "(?P<a>x)(y){0}(?P<b>z)\\3"

/-- The second group has a place in the table, but none of its own. -/
theorem names_skipped : ∃ compiled, compile skipped = .ok compiled ∧
    compiled.names = ["", "a", "", "b"] := by
  have encode_eq :
    Encoding.encode skipped = .ok [0x28, 0x3F, 0x50, 0x3C, 0x61, 0x3E, 0x78, 0x29, 0x28,
      0x79, 0x29, 0x7B, 0x30, 0x7D, 0x28, 0x3F, 0x50, 0x3C, 0x62, 0x3E, 0x7A, 0x29, 0xF3, 0xB0,
        0x88,
      0x83] := by decide +kernel
  have parse_eq :
    Expr.parse [0x28, 0x3F, 0x50, 0x3C, 0x61, 0x3E, 0x78, 0x29, 0x28, 0x79, 0x29, 0x7B,
      0x30, 0x7D, 0x28, 0x3F, 0x50, 0x3C, 0x62, 0x3E, 0x7A, 0x29, 0xF3, 0xB0, 0x88, 0x83] =
        .ok (.concat [.capture 1 "a" (.literal [0x78] {}),
          .repetition (.counted 0 (some 0)) false (.capture 2 "" (.literal [0x79] {})),
          .capture 3 "b" (.literal [0x7A] {}), .literal [0xF0203] {}]) := by with_unfolding_all rfl
  obtain ⟨compiled, accepted⟩ :=
    exists_compile encode_eq parse_eq (by decide +kernel) (by decide +kernel)
  refine ⟨compiled, accepted, ?_⟩
  obtain ⟨-, names, -⟩ := compile_groups encode_eq parse_eq
  rw [(names compiled accepted).1]
  decide +kernel

def neverTaken : Bytes := Bytes.ofString "(a){0}"

/-- A group that is declared but never taken has no name, and cannot be referred to. -/
theorem names_neverTaken : Token.declaredGroups neverTaken = [""] ∧
    (∃ compiled, compile neverTaken = .ok compiled ∧ compiled.names = [""]) ∧
    compile (neverTaken ++ Bytes.ofString "\\1") = .error (.missingGroup 1 0) := by
  have plain_eq : Encoding.encode neverTaken = .ok [0x28, 0x61, 0x29, 0x7B, 0x30, 0x7D] := by
    decide +kernel
  have plainParse_eq : Expr.parse [0x28, 0x61, 0x29, 0x7B, 0x30, 0x7D] =
      .ok (.repetition (.counted 0 (some 0)) false (.capture 1 "" (.literal [0x61] {}))) := by
        with_unfolding_all rfl
  have encode_eq : Encoding.encode (neverTaken ++ Bytes.ofString "\\1") =
      .ok [0x28, 0x61, 0x29, 0x7B, 0x30, 0x7D, 0xF3, 0xB0, 0x88, 0x81] := by decide +kernel
  have parse_eq : Expr.parse [0x28, 0x61, 0x29, 0x7B, 0x30, 0x7D, 0xF3, 0xB0, 0x88, 0x81] =
      .ok (.concat [.repetition (.counted 0 (some 0)) false (.capture 1 "" (.literal [0x61] {})),
        .literal [0xF0201] {}]) := by with_unfolding_all rfl
  refine ⟨by decide +kernel, ?_, ?_⟩
  · obtain ⟨compiled, accepted⟩ :=
      exists_compile plain_eq plainParse_eq (by decide +kernel) (by decide +kernel)
    obtain ⟨encoded, expr, made⟩ := exists_made accepted
    cases plain_eq.symm.trans made.encode_eq
    cases plainParse_eq.symm.trans made.parse_eq
    exact ⟨compiled, accepted, made.names_eq.trans (by decide +kernel)⟩
  · have balanced : surplusCode? (.concat [.repetition (.counted 0 (some 0)) false
        (.capture 1 "" (.literal [0x61] {})), .literal [0xF0201] {}])
          [0x28, 0x61, 0x29, 0x7B, 0x30, 0x7D, 0xF3, 0xB0, 0x88, 0x81] = none :=
      surplusCode?_eq_none_iff.mpr fun _ _ => Sublist.countP_le (by decide +kernel)
    have refused : ((ofExpr (.concat [.repetition (.counted 0 (some 0)) false
        (.capture 1 "" (.literal [0x61] {})), .literal [0xF0201] {}])).map fun _ => ()) =
          .error (.missingGroup 1 0) := by decide +kernel
    rw [compile_eq encode_eq parse_eq balanced]
    generalize ofExpr _ = result at refused ⊢
    cases result with
    | error error => exact congrArg Except.error (Except.error.inj refused)
    | ok compiled => simp [Except.map] at refused

end CompiledPattern

end Rematch
