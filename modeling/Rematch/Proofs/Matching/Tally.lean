import Rematch.Proofs.Matching.Backtracking
import Rematch.Proofs.Matching.Completeness
import Rematch.Proofs.Matching.Jobs

/-!
What closures enter. Without backreferences no mark is taken back, so that a shared instruction is
entered as often as it gets marked; any other has one way in and is entered as often as what comes
before it. Where a run ends, the wait is for what comes after the run.
-/

namespace Rematch

open List Analysis Exploration

def Event.wait? : Event → Option (Nat × Nat)
  | .wait entry count _ _ => some (entry, count.toNat)
  | _ => none

namespace Exploration

def waits (state : Exploration) : List (Nat × Nat) := state.events.filterMap Event.wait?

def mark (state : Exploration) (pc : Nat) : Nat := (state.scope.visited.testBit pc).toNat

def Plain (state : Exploration) : Prop :=
  state.scope.visitId = 0 ∧ ∀ event ∈ state.events, event.visit = 0

end Exploration

namespace Graph

theorem NoBackreferences.backrefGroups_eq {g : Graph} (noBackrefs : g.NoBackreferences) :
    g.summary.backrefGroups = [] := by
  refine eq_nil_iff_forall_not_mem.mpr fun gr mem => ?_
  obtain ⟨-, pc, es, ext, -, got, inExts, kind, -⟩ := Graph.mem_referenced.mp mem
  exact noBackrefs pc es got ext inExts kind

/-- What comes after an instruction without consuming anything. -/
def stays (graph : Graph) (pc : Nat) : List Nat :=
  if graph.isByteRange pc then [] else graph.successors pc

/-- Where the run of a byte range leads, and how long it is. -/
def leads? (graph : Graph) (pc : Nat) : Option (Nat × Nat) :=
  if graph.isByteRange pc then
    some (graph.exit (graph.inst ((graph.summary.span pc).getLastD pc)).out,
      (graph.summary.span pc).length)
  else none

/-- What is entered by `visits` and by performing instructions. -/
structure Tally (graph : Graph) (visits entered performed : List Nat) (state after : Exploration) :
    Prop where
  blocks : ∀ pc ∈ entered, graph.Block pc
  visits_le : ∀ pc, entered.count pc ≤ visits.count pc + (performed.flatMap graph.stays).count pc
  mark_le : ∀ pc, graph.summary.isShared pc = true → entered.count pc + state.mark pc ≤
    after.mark pc
  waits_le : ∀ target count, graph.summary.isShared target = false →
    after.waits.count (target, count) ≤
      state.waits.count (target, count) + (performed.filterMap graph.leads?).count (target, count)
  resumes : ∀ wait ∈ after.waits, wait ∈ state.waits ∨ graph.Block wait.1 ∧ graph.Entry wait.1
  plain : state.Plain → after.Plain

structure Idle (graph : Graph) (state after : Exploration) : Prop where
  visited_eq : after.scope.visited = state.scope.visited
  waits_eq : ∀ target count, graph.summary.isShared target = false →
    after.waits.count (target, count) = state.waits.count (target, count)
  resumes : ∀ wait ∈ after.waits, wait ∈ state.waits ∨ graph.Block wait.1 ∧ graph.Entry wait.1
  plain : state.Plain → after.Plain

variable {g : Graph} {st m st' : Exploration} {pc : Nat}
  {visits visits' en en' performed performed' : List Nat}

theorem Idle.tally (idle : g.Idle st st') (visits : List Nat) :
    g.Tally visits [] [] st st' where
  blocks := by simp
  visits_le := by simp
  mark_le pc _ := by simp [Exploration.mark, idle.visited_eq]
  waits_le t n unshared := by simp [idle.waits_eq t n unshared]
  resumes := idle.resumes
  plain := idle.plain

namespace Tally

theorem append (fst : g.Tally visits en performed st m)
    (snd : g.Tally visits' en' performed' m st') :
    g.Tally (visits ++ visits') (en ++ en') (performed ++ performed') st st' where
  blocks pc mem := (mem_append.mp mem).elim (fst.blocks pc) (snd.blocks pc)
  visits_le pc := by
    have one := fst.visits_le pc
    have other := snd.visits_le pc
    simp only [count_append, flatMap_append]
    omega
  mark_le pc shared := by
    have one := fst.mark_le pc shared
    have other := snd.mark_le pc shared
    simp only [count_append]
    omega
  waits_le t n unshared := by
    have one := fst.waits_le t n unshared
    have other := snd.waits_le t n unshared
    simp only [filterMap_append, count_append]
    omega
  resumes wait mem := (snd.resumes wait mem).elim (fst.resumes wait) .inr
  plain start := snd.plain (fst.plain start)

theorem perform (tally : g.Tally visits en en st st') (mem : visits.Sublist (g.stays pc)) :
    g.Tally [] en (pc :: en) st st' where
  blocks := tally.blocks
  visits_le j := by
    have count := tally.visits_le j
    have le := mem.count_le j
    simp only [flatMap_cons, count_append, count_nil]
    omega
  mark_le := tally.mark_le
  waits_le t n unshared := by
    have le := tally.waits_le t n unshared
    have sublist := (sublist_cons_self pc en).filterMap g.leads?
    exact le.trans (Nat.add_le_add_left (sublist.count_le _) _)
  resumes := tally.resumes
  plain := tally.plain

theorem enter (block : g.Block pc)
    (enters : (if g.summary.isShared pc then st.enter? pc else some st) = some m)
    (tally : g.Tally [] en (pc :: en) m st') : g.Tally [pc] (pc :: en) (pc :: en) st st' := by
  obtain ⟨kept, -, events, -⟩ := enters_kept enters
  have waits : m.waits = st.waits := by rw [Exploration.waits, events, Exploration.waits]
  have mark {j : Nat} (shared : g.summary.isShared j = true) :
      [pc].count j + st.mark j ≤ m.mark j := by
    split at enters
    · obtain ⟨new, rfl⟩ := enter?_eq_some enters
      by_cases eq : pc = j
      · subst eq
        simp [Exploration.mark, new]
      · simp only [Exploration.mark, testBit_enter, eq, decide_false, Bool.or_false]
        simp [eq]
    · next unshared =>
      cases enters
      have ne : pc ≠ j := fun eq => unshared (eq ▸ shared)
      simp [ne]
  refine ⟨fun j mem => ?_, fun j => ?_, fun j shared => ?_, fun t n unshared => ?_,
    ?_, fun start => tally.plain ?_⟩
  · rcases mem_cons.mp mem with rfl | later
    · exact block
    · exact tally.blocks j later
  · have le := tally.visits_le j
    rw [← singleton_append, count_append]
    simp only [count_nil, singleton_append] at le ⊢
    omega
  · have le := tally.mark_le j shared
    have pre := mark shared
    rw [← singleton_append, count_append]
    omega
  · rw [← waits]
    exact tally.waits_le t n unshared
  · rw [← waits]
    exact tally.resumes
  · exact ⟨kept.visit_eq.trans start.1, events ▸ start.2⟩

end Tally

namespace Idle

theorem refl (st : Exploration) : g.Idle st st := ⟨rfl, fun _ _ _ => rfl, fun _ mem => .inl mem, id⟩

theorem of_events_eq (visited : st'.scope.visited = st.scope.visited)
    (visitId : st'.scope.visitId = st.scope.visitId) (events : st'.events = st.events) :
    g.Idle st st' := by
  have waits : st'.waits = st.waits := by rw [Exploration.waits, events, Exploration.waits]
  exact ⟨visited, fun _ _ _ => by rw [waits], fun _ mem => .inl (waits ▸ mem),
    fun start => ⟨visitId.trans start.1, events ▸ start.2⟩⟩

theorem record (st : Exploration) (n : Nat) : g.Idle st (st.record n) := of_events_eq rfl rfl rfl

theorem openScope (st : Exploration) (sl : Nat) (v : Int) : g.Idle st (st.openScope sl v false) :=
  of_events_eq rfl rfl rfl

theorem closeScope (st before : Exploration) (sl : Nat) :
    g.Idle st (st.closeScope before sl false) := by
  unfold Exploration.closeScope
  split
  · exact refl st
  · exact of_events_eq rfl rfl rfl

theorem accept (st : Exploration) : g.Idle st st.accept where
  visited_eq := rfl
  waits_eq _ _ _ := rfl
  resumes _ mem := .inl mem
  plain start := ⟨start.1, by simpa [Exploration.accept, Event.visit, start.1] using start.2⟩

theorem wait (block : g.Block pc) (entry : g.Entry pc) (shared : g.summary.isShared pc = true)
    (st : Exploration)
    (n : Nat) : g.Idle st (st.wait pc n) where
  visited_eq := rfl
  waits_eq t j unshared := by
    have ne : pc ≠ t := by
      rintro rfl
      simp [unshared] at shared
    simp [waits, Exploration.wait, Event.wait?, ne]
  resumes := by
    simp only [waits, Exploration.wait, Event.wait?, filterMap_cons, mem_cons]
    rintro wait (rfl | earlier)
    · exact .inr ⟨block, entry⟩
    · exact .inl earlier
  plain start := ⟨start.1, by simpa [Exploration.wait, Event.visit, start.1] using start.2⟩

end Idle

namespace Tally

theorem trans_idle (tally : g.Tally visits en performed st m) (idle : g.Idle m st') :
    g.Tally visits en performed st st' := by
  simpa using tally.append (idle.tally [])

theorem of_idle (idle : g.Idle st m) (tally : g.Tally visits en performed m st') :
    g.Tally visits en performed st st' := by
  simpa using (idle.tally []).append tally

theorem bytes (ok : g.Valid) (block : g.Block pc) (isBytes : g.isByteRange pc = true)
    (s : Scheduler) (st : Exploration) :
    g.Tally [] [] [pc] st (g.summary.exploreBytes s pc st) := by
  have stays : g.Tally [] [] [pc] st st := ((Idle.refl st).tally []).perform (nil_sublist _)
  unfold exploreBytes
  dsimp only
  split
  · refine ⟨by simp, by simp, fun j _ => ?_, fun t n unshared => ?_, ?_, fun start => ⟨start.1, ?_⟩⟩
    · rw [count_nil, Nat.zero_add]
      exact Nat.le_refl _
    · simp only [waits, Exploration.wait, record, Event.wait?, leads?, isBytes,
        if_true, filterMap_cons, filterMap_nil, Int.toNat_natCast, count_cons,
        count_nil, Nat.zero_add]
      exact Nat.le_refl _
    · simp only [waits, Exploration.wait, record, Event.wait?,
        filterMap_cons, mem_cons]
      rintro wait (rfl | earlier)
      · obtain ⟨stretch, r, parts⟩ := span_stretch g isBytes
        rw [parts] at stretch
        have entry := stretch.entry ok block.reachable
        rw [← parts] at entry
        exact .inr ⟨block.exit_span ok isBytes, entry⟩
      · exact .inl earlier
    · simpa only [Exploration.wait, record, Event.visit, start.1, mem_cons,
        forall_eq_or_imp, true_and] using start.2
  · exact stays

end Tally

section Exploring

variable {s : Scheduler} {v : Nat → Exploration → Exploration}
  {enters : Nat → Exploration → List Nat}

theorem tally_extensions {es : List Extension}
    (shared : ∀ ext ∈ es, (g.Block (g.exit ext.out) ∧ g.Entry (g.exit ext.out)) ∧
      g.summary.isShared (g.exit ext.out) = true)
    (explored : ∀ ext ∈ es, ∀ st, g.Tally [g.exit ext.out] (enters (g.exit ext.out) st)
      (enters (g.exit ext.out) st) st (v (g.exit ext.out) st)) (st : Exploration) :
    g.Tally (es.map fun ext => g.exit ext.out) (g.summary.extensionEntries s v enters es st)
      (g.summary.extensionEntries s v enters es st) st (g.summary.exploreExtensions s v es st) := by
  induction es generalizing st with
  | nil => exact (Idle.refl st).tally []
  | cons ext r ih =>
    have ih := ih (fun o mem => shared o (.tail _ mem)) fun o mem => explored o (.tail _ mem)
    unfold extensionEntries exploreExtensions
    split
    · exact (Idle.refl st).tally _
    have recorded : g.Idle st (st.record (ext.records st.scope.captures)) := .record _ _
    have unvisited {r : List Nat} {st st' : Exploration} {visits : List Nat}
        (tally : g.Tally visits r r st st') :
        g.Tally (g.exit ext.out :: visits) r r st st' :=
      ((Idle.refl st).tally [_]).append tally
    dsimp only
    cases ext.evaluate? s.text s.offset st.scope.captures with
    | none => exact unvisited (.of_idle recorded (ih _))
    | some n =>
      cases n with
      | zero => exact .of_idle recorded ((explored ext (.head _) _).append (ih _))
      | succ n =>
        obtain ⟨⟨block, entry⟩, isShared⟩ := shared ext (.head _)
        exact unvisited (.of_idle recorded (.of_idle (.wait block entry isShared _ _) (ih _)))

variable (ok : g.Valid) (free : g.summary.backrefGroups = [])

include ok free

theorem tally_inst (block : g.Block pc) (got : g.extensionsAt? pc = none)
    (explored : ∀ t ∈ g.successors pc, g.isByteRange pc = false → ∀ st,
      g.Tally [t] (enters t st) (enters t st) st (v t st))
    (st : Exploration) :
    g.Tally [] (g.summary.instEntries s v enters pc st)
      (pc :: g.summary.instEntries s v enters pc st) st (g.summary.exploreInst s v pc st) := by
  have unreferenced (gr : Nat) : g.summary.backrefGroups.contains gr = false := by simp [free]
  have none {st' : Exploration} (idle : g.Idle st st') : g.Tally [] [] [pc] st st' :=
    (idle.tally []).perform (nil_sublist _)
  have notBytes (op : (g.inst pc).op ≠ .byteRange) : g.isByteRange pc = false := by
    simp [isByteRange, op]
  have one (edges : g.successors pc = [g.exit (g.inst pc).out])
      (op : (g.inst pc).op ≠ .byteRange) (st : Exploration) :
      g.Tally [] (enters (g.exit (g.inst pc).out) st) (pc :: enters (g.exit (g.inst pc).out) st) st
        (v (g.exit (g.inst pc).out) st) := by
    refine (explored _ (by simp [edges]) (notBytes op) st).perform ?_
    rw [stays, if_neg (by simp [notBytes op]), edges]
  unfold instEntries exploreInst
  simp only [show g.summary.inst pc = g.inst pc from rfl,
    show ∀ out, g.summary.exit out = g.exit out from fun _ => rfl, unreferenced]
  cases op : (g.inst pc).op with
  | alt | altMatch =>
    have edges : g.successors pc = [g.exit (g.inst pc).out, g.exit (g.inst pc).out1] := by
      simp [successors, got, op]
    have isNot := notBytes (by simp [op])
    refine Tally.perform ((explored _ (by simp [edges]) isNot st).append
      (explored _ (by simp [edges]) isNot _)) ?_
    rw [stays, if_neg (by simp [isNot]), edges]
    exact Sublist.refl _
  | byteRange => exact .bytes ok block (by simp [isByteRange, op, got]) s st
  | capture =>
    have through := one (by simp [successors, got, op]) (by simp [op])
    dsimp only
    split
    · exact (Tally.of_idle (.openScope _ _ _) (through _)).trans_idle (.closeScope _ _ _)
    · exact through st
  | emptyWidth =>
    dsimp only
    split
    · exact one (by simp [successors, got, op]) (by simp [op]) st
    · exact none (.refl st)
  | nop => exact one (by simp [successors, got, op]) (by simp [op]) st
  | accept =>
    dsimp only
    split
    · exact (none (.accept st)).trans_idle (.record _ _)
    · exact none (.refl st)
  | fail | unknown => exact none (.refl st)

theorem tally_explore (d : Nat) (block : g.Block pc) (st : Exploration) :
    g.Tally [pc] (g.summary.entries s d pc st)
      (g.summary.entries s d pc st) st (g.summary.explore s d pc st) := by
  induction d generalizing pc st with
  | zero => exact (Idle.refl st).tally [pc]
  | succ d ih =>
    unfold entries explore
    split
    · exact (Idle.refl st).tally [pc]
    cases enters : if g.summary.isShared pc then st.enter? pc else some st with
    | none => exact (Idle.refl st).tally [pc]
    | some m =>
    refine .enter block enters ?_
    cases got : g.summary.extensionsAt? pc with
    | some es =>
      have got : g.extensionsAt? pc = some es := got
      have notBytes : g.isByteRange pc = false := by simp [isByteRange, got]
      have edges := successors_of_extensions got
      have mem {ext : Extension} (inExts : ext ∈ es) : g.exit ext.out ∈ g.successors pc := by
        rw [edges]
        exact mem_map_of_mem inExts
      have next {ext : Extension} (inExts : ext ∈ es) : g.Block (g.exit ext.out) :=
        .of_stays ok block.reachable ⟨mem inExts, notBytes⟩
      refine Tally.perform (tally_extensions
        (fun ext inExts => ⟨⟨next inExts, .extension block.reachable got inExts⟩, ?_⟩)
        (fun ext inExts => ih (next inExts)) m) ?_
      · by_contra unshared
        have none := extensionsAt?_of_unshared ok (by simpa using unshared) block.reachable
          (mem inExts)
        simp [got] at none
      · rw [stays, if_neg (by simp [notBytes]), edges]
    | none =>
      have got : g.extensionsAt? pc = none := got
      refine tally_inst ok free block got (fun t mem notBytes => ih ?_) m
      exact .of_stays ok block.reachable ⟨mem, notBytes⟩

end Exploring

section Sources

variable {t len : Nat}

theorem exists_edge_of_leads? (ok : g.Valid) (block : g.Block pc)
    (leads : g.leads? pc = some (t, len)) : g.isByteRange pc = true ∧
      ∃ z, g.Reachable z ∧ g.isByteRange z = true ∧ t ∈ g.successors z := by
  unfold leads? at leads
  split at leads
  · next isBytes =>
    have run := run_of_mem_fused ok (block.span_mem_fused ok isBytes).1
    cases leads
    exact ⟨isBytes, _, run.reachable _ (run.getLastD_mem pc), run.bytes _ (run.getLastD_mem pc),
      run.exit_mem pc⟩
  · simp at leads

theorem eq_of_leads? (ok : g.Valid) {j len' : Nat} (block : g.Block pc) (block' : g.Block j)
    (leads : g.leads? pc = some (t, len)) (leads' : g.leads? j = some (t, len'))
    (unshared : g.summary.isShared t = false) : pc = j := by
  have isBytes := (exists_edge_of_leads? ok block leads).1
  have isBytes' := (exists_edge_of_leads? ok block' leads').1
  rw [leads?, if_pos isBytes, Option.some.injEq, Prod.mk.injEq] at leads
  rw [leads?, if_pos isBytes', Option.some.injEq, Prod.mk.injEq] at leads'
  exact block.eq_of_exit_span ok block' isBytes isBytes' (leads.1.trans leads'.1.symm)
    (leads.1 ▸ unshared)

theorem mem_stays : t ∈ g.stays pc ↔ g.Stays pc t := by
  unfold stays
  split
  · next isBytes => exact ⟨by simp, fun stays => by simp [stays.notBytes] at isBytes⟩
  · next notBytes => exact ⟨fun mem => ⟨mem, by simpa using notBytes⟩, Stays.listed⟩

theorem isShared_of_stays (ok : g.Valid) (entry : g.Entry t)
    (reach : g.Reachable pc) (stays : g.Stays pc t) : g.summary.isShared t = true := by
  by_contra shared
  have unshared : g.summary.isShared t = false := by simpa using shared
  cases entry with
  | start => exact ne_start_of_unshared ok unshared reach stays.listed rfl
  | bytes source isBytes =>
    have eq := eq_of_unshared ok unshared reach source stays.listed
      (by rw [successors_of_isByteRange isBytes]; exact .head _)
    have notBytes := stays.notBytes
    rw [eq, isBytes] at notBytes
    simp at notBytes
  | extension source got mem =>
    have none := extensionsAt?_of_unshared ok unshared source
      (by rw [successors_of_extensions got]; exact mem_map_of_mem mem)
    simp [got] at none

variable {l : List Nat}

theorem count_flatMap_le {edges : Nat → List Nat} (single : (edges pc).count t ≤ 1)
    (only : ∀ j ∈ l, t ∈ edges j → j = pc) : (l.flatMap edges).count t ≤ l.count pc := by
  induction l with
  | nil => simp
  | cons a r ih =>
    have ih := ih fun j mem => only j (.tail _ mem)
    rw [flatMap_cons, count_append, count_cons]
    by_cases mem : t ∈ edges a
    · obtain rfl := only a (.head _) mem
      simp only [beq_self_eq_true, if_true]
      omega
    · rw [count_eq_zero.mpr mem]
      omega

theorem count_filterMap_le {f : Nat → Option (Nat × Nat)} {item : Nat × Nat}
    (only : ∀ j ∈ l, f j = some item → j = pc) : (l.filterMap f).count item ≤ l.count pc := by
  induction l with
  | nil => simp
  | cons a r ih =>
    have ih := ih fun j mem => only j (.tail _ mem)
    rw [filterMap_cons, count_cons]
    cases value : f a with
    | none => exact Nat.le_add_right_of_le ih
    | some found =>
      rw [count_cons]
      by_cases eq : found = item
      · obtain rfl := only a (.head _) (by rw [value, eq])
        simp [eq, ih]
      · simp only [beq_iff_eq, eq, if_false]
        omega

end Sources

end Graph

end Rematch
