import Mathlib.Algebra.Order.BigOperators.Group.List
import Mathlib.Algebra.Order.Ring.Nat
import Rematch.Proofs.Matching.Jobs
import Rematch.Proofs.Native.Fragments

/-!
The stack of compiled code. Where the interpreter leaves a job for later, compiled code leaves a
call open. Every open call belongs to an instruction of its own on the way from the entry, and since
the way repeats nothing, the sum over all blocks bounds the stack. Marks that are restored when a
scope ends still cover the way to the scope.
-/

namespace Rematch

open List Analysis

/-- The bytes of the call that is left open for a job, with a bitmap of `bitmap` bytes: return
address and frame pointer, and what there is to restore. -/
def Job.bytes (bitmap : Nat) : Job → Nat
  | .visit _ | .options _ => 16
  | .restoreCapture _ _ => 24
  | .restoreVisited _ _ => 8 + bitmap

namespace Native

/-- The bytes that a job takes while it is done: a match and all extensions but the last are
calls. -/
def ownBytes (analysis : Analysis) (bitmap : Nat) : Job → Nat
  | .visit pc => if (analysis.inst pc).op = .accept then 8 else 0
  | .options exts => if 1 < exts.length then 16 else 0
  | job => job.bytes bitmap

/-- The bytes on the stack when the first job is being done; eight are the first return address. -/
def stackBytes (analysis : Analysis) (bitmap : Nat) : List Job → Nat
  | [] => 8
  | job :: rest => 8 + ownBytes analysis bitmap job + (rest.map (Job.bytes bitmap)).sum

/-- How deep each call in a piece of code goes, where `depth` bytes are on the stack before it. -/
def callDepths (bitmap : Nat) : Nat → List Line → List Nat
  | _, [] => []
  | depth, .instr instr :: rest =>
    match instr with
    | .push _ => callDepths bitmap (depth + 8) rest
    | .pop _ => callDepths bitmap (depth - 8) rest
    | .sub target _ =>
      callDepths bitmap (if target = Machine.Register.rsp then depth + bitmap else depth) rest
    | .addLoad target _ _ =>
      callDepths bitmap (if target = Machine.Register.rsp then depth - bitmap else depth) rest
    | .call _ => (depth + 8) :: callDepths bitmap depth rest
    | _ => callDepths bitmap depth rest
  | depth, .mark _ :: rest => callDepths bitmap depth rest

theorem callDepths_captureLines (an : Analysis) (bm sl out : Nat) (st : Exploration) :
    callDepths bm 0 (captureLines an sl out) =
      [((st.restores sl (an.backrefGroups.contains (sl / 2))).map (Job.bytes bm)).sum] := by
  unfold captureLines Exploration.restores
  cases an.backrefGroups.contains (sl / 2) with
  | false => simp [callDepths, Job.bytes]
  | true => simp [callDepths, snapshotLines, restoreLines, Job.bytes]

theorem ownBytes_le (an : Analysis) (bm : Nat) (job : Job) : ownBytes an bm job ≤ job.bytes bm := by
  cases job with
  | visit | options =>
    simp only [ownBytes, Job.bytes]
    split <;> omega
  | restoreCapture | restoreVisited => exact Nat.le_refl _

theorem stackBytes_le (an : Analysis) (bm : Nat) (js : List Job) :
    stackBytes an bm js ≤ 8 + (js.map (Job.bytes bm)).sum := by
  cases js with
  | nil => exact Nat.le_refl _
  | cons job r =>
    have own := ownBytes_le an bm job
    simp only [stackBytes, map_cons, sum_cons]
    omega

end Native

namespace Graph

variable {g : Graph} {s : Scheduler} {p : List Nat} {pc : Nat} {js js' : List Job}
  {st st' : Exploration}

/-- An instruction that is new on a way and from which it can go on. -/
structure Owner (graph : Graph) (path : List Nat) (pc : Nat) : Prop where
  trail : graph.Trail path pc
  new : pc ∉ path
  notBytes : graph.isByteRange pc = false

/-- Whether an instruction opens a scope with marks of its own. -/
def saves (graph : Graph) (pc : Nat) : Bool :=
  (graph.inst pc).op = .capture && graph.summary.backrefGroups.contains ((graph.inst pc).arg / 2)

/-- Open calls, each of an instruction of its own on the way. -/
inductive Pending (graph : Graph) : List Nat → List Job → Prop where
  | nil : Pending graph [] []
  | skip {path pc jobs} (owner : graph.Owner path pc)
      (pending : Pending graph path jobs) : Pending graph (pc :: path) jobs
  | visit {path pc target jobs} (owner : graph.Owner path pc)
      (stays : graph.Stays pc target) (pending : Pending graph path jobs) :
      Pending graph (pc :: path) (.visit target :: jobs)
  | options {path pc exts jobs}
      (owner : graph.Owner path pc)
      (listed : ∀ ext ∈ exts, graph.Stays pc (graph.exit ext.out))
      (pending : Pending graph path jobs) : Pending graph (pc :: path) (.options exts :: jobs)
  | capture {path pc slot value jobs}
      (owner : graph.Owner path pc) (pending : Pending graph path jobs) :
      Pending graph (pc :: path) (.restoreCapture slot value :: jobs)
  | scope {path pc slot visited visitId value jobs}
      (owner : graph.Owner path pc) (saves : graph.saves pc = true)
      (covers : ∀ other ∈ pc :: path, graph.summary.isShared other = true →
        visited.testBit other = true)
      (pending : Pending graph path jobs) :
      Pending graph (pc :: path)
        (.restoreVisited visited visitId :: .restoreCapture slot value :: jobs)

/-- The most that an instruction can leave on the stack. -/
def charge (graph : Graph) (bitmap pc : Nat) : Nat :=
  32 + if graph.saves pc then bitmap + 24 else 0

namespace Pending

theorem bytes_le (pend : g.Pending p js) (bm : Nat) :
    (js.map (Job.bytes bm)).sum ≤ (p.map (g.charge bm)).sum := by
  induction pend with
  | nil => exact Nat.le_refl _
  | skip _ _ ih =>
    simp only [map_cons, sum_cons]
    omega
  | visit _ _ _ ih | options _ _ _ ih | capture _ _ ih =>
    simp only [map_cons, sum_cons, Job.bytes, charge]
    omega
  | scope _ saves _ _ ih =>
    simp only [map_cons, sum_cons, Job.bytes, charge, saves, if_true]
    omega

theorem owners (pend : g.Pending p js) : p.Nodup ∧ ∀ pc ∈ p, ∃ u, g.Owner u pc := by
  induction pend with
  | nil => exact ⟨nodup_nil, by simp⟩
  | @skip path pc _ owner _ ih | @visit path pc _ _ owner _ _ ih | @options path pc _ _ owner _ _ ih
  | @capture path pc _ _ _ owner _ ih | @scope path pc _ _ _ _ _ owner _ _ _ ih =>
    refine ⟨nodup_cons.mpr ⟨owner.new, ih.1⟩, fun j mem => ?_⟩
    rcases mem_cons.mp mem with rfl | earlier
    · exact ⟨path, owner⟩
    · exact ih.2 j earlier

theorem tries {es : List Extension} (owner : g.Owner p pc)
    (mem : ∀ ext ∈ es, g.Stays pc (g.exit ext.out)) (pend : g.Pending p js) :
    g.Pending (pc :: p) (Job.tries es ++ js) := by
  cases es with
  | nil => exact .skip owner pend
  | cons ext r => exact .options owner mem pend

end Pending

/-- What is on the stack between two jobs, with the marks that keep the way from being repeated. -/
inductive Poised (graph : Graph) (state : Exploration) : List Job → Prop where
  | pending {path jobs} (guarded : graph.Guarded path state)
      (pending : graph.Pending path jobs) : Poised graph state jobs
  | visit {path pc jobs} (guarded : graph.Guarded path state)
      (trail : graph.Trail path pc) (pending : graph.Pending path jobs) :
      Poised graph state (.visit pc :: jobs)

theorem Guarded.tail (guarded : g.Guarded (pc :: p) st) : g.Guarded p st :=
  fun run j on => guarded run j (.tail _ on)

namespace Poised

theorem inst (owner : g.Trail p pc) (new : pc ∉ p) (plain : g.extensionsAt? pc = none)
    (run : st.accepted = false) (guarded : g.Guarded (pc :: p) st) (pend : g.Pending p js) :
    g.Poised (g.summary.performInst s pc st).2 ((g.summary.performInst s pc st).1 ++ js) := by
  have owns : (g.inst pc).op ≠ .byteRange → g.Owner p pc :=
    fun other => ⟨owner, new, by simp [isByteRange, other]⟩
  have eq : g.summary.inst pc = g.inst pc := rfl
  have done : g.Poised st js := .pending guarded.tail pend
  unfold performInst
  simp only [eq]
  cases op : (g.inst pc).op with
  | alt | altMatch =>
    have fst : g.Stays pc _ := .out plain (by simp [op])
    have snd : g.Stays pc _ := .out1 plain (by simp [op])
    exact .visit guarded (.step owner new fst) (.visit (owns (by simp [op])) snd pend)
  | byteRange =>
    obtain ⟨scope, acc⟩ := Explores.exploreBytes_scope g.summary s pc st
    refine .pending (fun still => ?_) pend
    rw [scope]
    exact guarded.tail run
  | capture =>
    have next : g.Stays pc _ := .out plain (by simp [op])
    dsimp only
    split
    · refine .visit (guarded.openScope _ _ _) (.step owner new next) ?_
      unfold Exploration.restores
      split
      · next referenced =>
        exact .scope (owns (by simp [op])) (by rw [saves, op, referenced]; rfl) (guarded run) pend
      · exact .capture (owns (by simp [op])) pend
    · exact .visit guarded (.step owner new next) (.skip (owns (by simp [op])) pend)
  | emptyWidth =>
    have next : g.Stays pc _ := .out plain (by simp [op])
    dsimp only
    split
    · exact .visit guarded (.step owner new next) (.skip (owns (by simp [op])) pend)
    · exact done
  | nop =>
    have next : g.Stays pc _ := .out plain (by simp [op])
    exact .visit guarded (.step owner new next) (.skip (owns (by simp [op])) pend)
  | accept =>
    dsimp only
    split
    · exact .pending (fun still => by simp [Exploration.record, Exploration.accept] at still) pend
    · exact done
  | fail | unknown => exact done

section

variable (ok : g.Valid) (run : st.accepted = false) (guarded : g.Guarded p st)

include ok run guarded

theorem step_visit (trail : g.Trail p pc) (pend : g.Pending p js) :
    g.Poised (g.summary.perform s (.visit pc) st).2
      ((g.summary.perform s (.visit pc) st).1 ++ js) := by
  dsimp only [perform]
  split
  · exact .pending guarded pend
  next en enters =>
  obtain ⟨-, acc, -⟩ := Exploration.enters_kept enters
  have new := guarded.not_mem ok trail run enters
  have guarded' := guarded.enter run enters
  split
  · next es got =>
    have got : g.extensionsAt? pc = some es := got
    have notBytes : g.isByteRange pc = false := by simp [isByteRange, got]
    refine .pending guarded' (.tries ⟨trail, new, notBytes⟩ (fun ext mem => ⟨?_, notBytes⟩) pend)
    rw [successors_of_extensions got]
    exact mem_map.mpr ⟨ext, mem, rfl⟩
  · next plain => exact inst trail new plain (acc.trans run) guarded' pend

theorem step_pending (pend : g.Pending p js) (step : g.summary.work? s (js, st) = some (js', st')) :
    g.Poised st' js' := by
  induction pend with
  | nil => simp [work?] at step
  | skip _ _ ih => exact ih guarded.tail step
  | visit owner stays pend =>
    rw [work?_cons _ _ run] at step
    obtain ⟨rfl, rfl⟩ := Prod.mk.inj (Option.some.inj step)
    exact step_visit ok run guarded (.step owner.trail owner.new stays) (.skip owner pend)
  | @options path pc es jobs owner mem pend =>
    rw [work?_cons _ _ run] at step
    cases step
    cases es with
    | nil => exact .pending guarded.tail pend
    | cons ext r =>
      have later := Pending.tries owner (fun ext inRest => mem ext (.tail _ inRest)) pend
      dsimp only [perform]
      split
      · exact .pending guarded later
      · exact .visit guarded (.step owner.trail owner.new (mem ext (.head _))) later
      · exact .pending guarded later
  | capture owner pend =>
    rw [work?_cons _ _ run] at step
    cases step
    exact .pending guarded.tail pend
  | scope owner _ covers pend =>
    rw [work?_cons _ _ run] at step
    cases step
    exact .pending (fun _ => covers) (.capture owner pend)

end

variable (ok : g.Valid) (poised : g.Poised st js)

include ok poised

theorem step (step : g.summary.work? s (js, st) = some (js', st')) : g.Poised st' js' := by
  have run : st.accepted = false := by
    cases acc : st.accepted with
    | false => rfl
    | true => cases js <;> simp [work?, acc] at step
  cases poised with
  | pending guarded pend => exact step_pending ok run guarded pend step
  | visit guarded trail pend =>
    rw [work?_cons _ _ run] at step
    obtain ⟨rfl, rfl⟩ := Prod.mk.inj (Option.some.inj step)
    exact step_visit ok run guarded trail pend

theorem works (works : g.summary.Works s (js, st) (js', st')) : g.Poised st' js' := by
  generalize reached : (js', st') = z at works
  induction works generalizing js' st' with
  | refl =>
    cases reached
    exact poised
  | @tail m _ _ turn ih =>
    subst reached
    exact (ih rfl).step ok turn

end Poised

theorem Owner.block (owner : g.Owner p pc) (ok : g.Valid) : g.Block pc := by
  refine ⟨(owner.trail.reachable ok).1, fun abs => ?_⟩
  have bytes := (abs.continues ok).bytes
  simp [owner.notBytes] at bytes

theorem Pending.charge_le (pend : g.Pending p js) (ok : g.Valid) (bm : Nat) :
    (p.map (g.charge bm)).sum ≤ (g.summary.blocks.map (g.charge bm)).sum := by
  obtain ⟨nodup, owners⟩ := pend.owners
  have lt : p ⊆ g.summary.blocks := by
    intro pc mem
    obtain ⟨u, owner⟩ := owners pc mem
    exact (mem_blocks ok).mpr (owner.block ok)
  obtain ⟨ordered, perm, sublist⟩ := subperm_of_subset nodup lt
  rw [← (perm.map (g.charge bm)).sum_eq]
  exact (sublist.map _).sum_le_sum fun _ _ => Nat.zero_le _

theorem Poised.stackBytes_le (poised : g.Poised st js) (ok : g.Valid) (bm : Nat) :
    Native.stackBytes g.summary bm js ≤ 16 + (g.summary.blocks.map (g.charge bm)).sum := by
  cases poised with
  | pending _ pend =>
    have used := Native.stackBytes_le g.summary bm js
    have pendingBytes := pend.bytes_le bm
    have le := pend.charge_le ok bm
    omega
  | @visit _ pc r _ _ pend =>
    have pendingBytes := pend.bytes_le bm
    have le := pend.charge_le ok bm
    have own : Native.ownBytes g.summary bm (.visit pc) ≤ 8 := by
      simp only [Native.ownBytes]
      split <;> omega
    simp only [Native.stackBytes]
    omega

theorem sum_charge (g : Graph) (bm : Nat) (l : List Nat) : (l.map (g.charge bm)).sum =
    32 * l.length + (l.filter g.saves).length * (bm + 24) := by
  induction l with
  | nil => simp
  | cons pc r ih =>
    rw [map_cons, sum_cons, ih, charge, filter_cons]
    cases g.saves pc with
    | false => simp; omega
    | true => simp [Nat.add_mul]; omega

theorem sum_charge_le (g : Graph) :
    (g.summary.blocks.map (g.charge (8 * ((g.size + 63) / 64 + 1)))).sum + 32 ≤
      Native.stackSize g.automaton g.summary := by
  have saving : (g.summary.blocks.filter fun pc =>
      (g.automaton.insts.getD pc {}).op = .capture &&
        g.summary.backrefGroups.contains ((g.automaton.insts.getD pc {}).arg / 2)) =
      g.summary.blocks.filter g.saves := rfl
  rw [sum_charge, Native.stackSize, saving]
  split
  · simp only [Graph.size]
    omega
  · next none =>
    have no : ∀ pc, g.saves pc = false := by
      intro pc
      have empty : g.summary.backrefGroups = [] := by simpa [hasBackrefs] using none
      simp [saves, empty]
    simp only [filter_congr fun pc _ => no pc, filter_false, length_nil]
    omega

/-- At no time does a closure by compiled code, from where a thread can be entered, need more of the
stack than there is. The calls in the code go as deep as they are counted, and nothing else in it
uses the stack. -/
theorem stack_suffices {graph : Graph} {analysis : Analysis}
    (accepted : graph.analyze = .ok analysis)
    (sched : Scheduler) (entry : graph.Entry pc) (maxThreads : Nat) :
    (∃ left, analysis.Works sched ([.visit pc], { scope := sched.scope })
        (left, analysis.closure sched pc) ∧
      analysis.work? sched (left, analysis.closure sched pc) = none) ∧
    (∀ jobs state, analysis.Works sched ([.visit pc], { scope := sched.scope }) (jobs, state) →
      Native.stackBytes analysis (8 * (Scheduler.new analysis.size maxThreads).words) jobs + 16 ≤
        Native.stackSize graph.automaton analysis) ∧
    (∀ bitmap, (∀ label, Native.callDepths bitmap 0 (Native.tryLines label) = [16]) ∧
      (∀ slot out state, Native.callDepths bitmap 0 (Native.captureLines analysis slot out) =
        [((Exploration.restores state slot (analysis.backrefGroups.contains (slot / 2))).map
          (Job.bytes bitmap)).sum]) ∧
      ∀ pc, Native.callDepths bitmap 0 (Native.acceptLines pc) = [8]) ∧
    (∀ next block lines, Native.blockLines graph.automaton analysis next block = .ok lines →
      lines.filter Native.Line.usesStack =
        (Native.countedLines graph.automaton analysis block).filter Native.Line.usesStack) ∧
    (Native.stubLines ++ Native.runtimeLines).filter Native.Line.usesStack = [] := by
  obtain ⟨valid, rfl⟩ := analyze_eq_ok accepted
  refine ⟨works_closure valid (entry.reachable valid) sched, fun jobs state works => ?_,
    fun bitmap =>
    ⟨fun _ => rfl, Native.callDepths_captureLines graph.summary bitmap, fun _ => rfl⟩,
    fun _ _ _ => Native.filter_usesStack, rfl⟩
  have poised : graph.Poised { scope := sched.scope } [.visit pc] :=
    .visit (fun _ _ onPath => False.elim (not_mem_nil onPath)) (.entry entry) .nil
  have used := (poised.works valid works).stackBytes_le valid (8 * ((graph.size + 63) / 64 + 1))
  have enough := graph.sum_charge_le
  change Native.stackBytes graph.summary (8 * ((graph.size + 63) / 64 + 1)) jobs + 16 ≤ _
  omega

/-- Inside both scopes of an empty group, the second choice of the loop and all that the scopes
restore are on the stack. -/
theorem stack_hollow : ∃ sched : Scheduler, ∃ jobs state,
    sched = (Scheduler.new 5 0).init #[] hollow.summary.start 0 4 ∧
    hollow.summary.Works sched ([.visit hollow.start], { scope := sched.scope }) (jobs, state) ∧
    Native.stackBytes hollow.summary 16 jobs = 120 ∧
    Native.stackBytes hollow.summary 16 jobs + 16 ≤
      Native.stackSize hollow.automaton hollow.summary ∧
    Native.stackSize hollow.automaton hollow.summary = 4624 := by
  let sched := (Scheduler.new 5 0).init #[] hollow.summary.start 0 4
  let chosen := (hollow.summary.work? sched ([.visit hollow.start], { scope := sched.scope })).get
    (by decide +kernel)
  let opened := (hollow.summary.work? sched chosen).get (by decide +kernel)
  let closed := (hollow.summary.work? sched opened).get (by decide +kernel)
  have works : hollow.summary.Works sched ([.visit hollow.start], { scope := sched.scope })
      (closed.1, closed.2) :=
    .tail (.tail (.single (Option.some_get _).symm) (Option.some_get _).symm)
      (Option.some_get _).symm
  exact ⟨sched, closed.1, closed.2, rfl, works, by decide +kernel,
    (stack_suffices (analyze_of_validate (by decide +kernel)) sched .start 0).2.1 _ _ works,
    by decide +kernel⟩

end Graph

end Rematch
