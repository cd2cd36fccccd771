import Rematch.Proofs.Matching.Entered

/-!
Soundness: what a search reports is the end of a path. Each thread stands where a path of single
instructions leads, with the captures of that very path, however its record was used before and
whatever was lost for want of records.
-/

namespace Rematch

namespace Graph

variable {g : Graph} {q : Query} {k : Nat}

/-- A path from the start accepts with the given captures, of which the second is the end. -/
def Reports (graph : Graph) (query : Query) (captures : Captures) : Prop :=
  ∃ point, graph.Leads query point ∧ graph.Accepts query point ∧
    captures = point.captures.setIfInBounds 1 point.offset

theorem leads_seed (ok : g.Valid) (start : q.start = g.start)
    (lt : k ≤ q.text.size) (anc : q.anchorsStart = true → k = 0) :
    g.Leads q ⟨q.start, k, q.blank k⟩ := by
  rw [start]
  exact ⟨k, lt, anc, path_follow ok _ _ _⟩

end Graph

namespace Search

variable {g : Graph} {q : Query} {s z : Search}

/-- Every thread stands where a path leads, and the best match is the end of one. -/
structure Sound (graph : Graph) (query : Query) (offset : Nat) (front : Front) : Prop where
  later : ∀ thread ∈ front.later,
    graph.Leads query ⟨thread.entry, offset + 1 + thread.delay, thread.captures⟩
  now : ∀ thread ∈ front.now,
    graph.Leads query ⟨thread.entry, offset + thread.delay, thread.captures⟩
  best : ∀ captures, front.best = some captures → graph.Reports query captures

theorem Sound.absorb {s : Scheduler} {evs : List Event} {f f' : Front} {o : Point}
    (abs : Front.AbsorbsAll s evs f f') (leads : g.Leads s.query o)
    (follows : ∀ ev ∈ evs, ev.Follows g s.query s.offset o) (sound : Sound g s.query s.offset f) :
    Sound g s.query s.offset f' := by
  induction abs with
  | nil => exact sound
  | cons head tail ih =>
    apply ih fun ev mem => follows ev (.tail _ mem)
    have followed := follows _ (.head _)
    cases head with
    | @wait e v n c f fits =>
      refine ⟨?_, sound.now, sound.best⟩
      intro t mem
      rcases List.mem_append.mp mem with pre | new
      · exact sound.later t pre
      · rw [List.mem_singleton.mp new]
        have reached := leads.trans followed
        have eq : s.offset + 1 + (n.toNat - 1) = s.offset + n.toNat := by omega
        simpa [eq] using reached
    | misfit | lose | refuse => exact sound
    | accept =>
      obtain ⟨pc, path, accepts⟩ := followed
      refine ⟨sound.later, by simp, ?_⟩
      intro c got
      cases got
      exact ⟨_, leads.trans path, accepts, rfl⟩
    | loseMatch => exact ⟨sound.later, by simp, by simp⟩

variable (ok : g.Valid) (start : q.start = g.start)

include ok start

theorem Step.sound (step : s.Step g.summary.interpreter q z) (ent : s.Entered g)
    (sound : Sound g q s.offset s.front) : Sound g q z.offset z.front := by
  cases step with
  | @postpone t l now best feq delayed =>
    rw [feq] at sound
    refine ⟨?_, fun o mem => sound.now o (.tail _ mem), sound.best⟩
    intro o mem
    rcases List.mem_append.mp mem with pre | new
    · exact sound.later o pre
    · rw [List.mem_singleton.mp new]
      have leads := sound.now t (.head _)
      have eq : s.offset + 1 + (t.delay - 1) = s.offset + t.delay := by omega
      simpa [eq] using leads
  | @close t l now best v owner sched feq due beg abs owned =>
    unfold Entered at ent
    rw [feq] at sound ent
    obtain ⟨st, -, turn, arises⟩ := Graph.interpreter_explores ok beg.positioned (ent t (by simp))
    rw [turn] at abs
    have leads := sound.now t (.head _)
    rw [due, Nat.add_zero] at leads
    have caps : sched.scope.captures = t.captures := by rw [beg.scope_eq]; rfl
    rw [← beg.query_eq, ← beg.offset_eq, ← caps] at leads
    rw [← beg.query_eq, ← beg.offset_eq] at sound ⊢
    exact Sound.absorb abs leads (fun ev hm => (arises ev hm).follows)
      ⟨sound.later, fun o mem => sound.now o (.tail _ mem), sound.best⟩
  | @advance l sd best feq unfinished seeded =>
    rw [feq] at sound
    refine ⟨by simp, ?_, sound.best⟩
    intro o mem
    rcases List.mem_append.mp mem with pre | new
    · exact sound.later o pre
    · have inText : s.offset + 1 ≤ q.text.size := by
        simp only [isDone, Bool.or_eq_false_iff, decide_eq_false_iff_not] at unfinished
        omega
      unfold Query.Seeds at seeded
      split at seeded
      · simp [seeded] at new
      · next unanchored =>
        rcases seeded with rfl | ⟨-, rfl⟩
        · rw [List.mem_singleton.mp new]
          simp only [Bool.or_eq_true, not_or] at unanchored
          exact Graph.leads_seed ok start inText fun anc => False.elim (unanchored.1 anc)
        · simp at new

theorem Reaches.sound (reached : (initial q).Reaches g.summary.interpreter q z) :
    Sound g q z.offset z.front := by
  induction reached with
  | refl =>
    refine ⟨by simp [initial], ?_, by simp [initial]⟩
    intro t mem
    obtain rfl : t = q.seed 0 := by simpa [initial] using mem
    exact Graph.leads_seed ok start (Nat.zero_le _) fun _ => rfl
  | tail pre step ih => exact step.sound ok start (Reaches.entered ok start pre) ih

end Search

namespace Graph

/-- A search reports nothing but what a path of single instructions builds: it begins at the offset
in the first slot, ends at that in the second, keeps to the anchors, and has the other captures of
the report. That holds for any bound on the number of threads. -/
theorem path_of_result? {graph : Graph} {analysis : Analysis}
    (accepted : graph.analyze = .ok analysis) {text : Text} {flags slots maxThreads : Nat}
    {final : Scheduler}
    (finishes : Scheduler.Finishes analysis.interpreter
      ((Scheduler.new graph.size maxThreads).init text analysis.start flags slots) final)
    {captures : Captures} (found : final.result? = some captures) :
    let query : Query := ⟨text, flags, max slots 2, analysis.start, maxThreads⟩
    ∃ first last, graph.Path query (graph.origin query first) last ∧ graph.Accepts query last ∧
      (flags.testBit 0 = true → first = 0) ∧ (flags.testBit 1 = true → last.offset = text.size) ∧
      captures = last.captures.setIfInBounds 1 last.offset ∧
      captures[1]? = some (last.offset : Int) ∧
      ((∀ pc, (graph.inst pc).op = .capture → (graph.inst pc).arg ≠ 0) →
        captures[0]? = some (first : Int)) := by
  intro query
  obtain ⟨valid, rfl⟩ := analyze_eq_ok accepted
  obtain ⟨search, reached, -, -, -, result⟩ := finishes.result?_eq graph.summary.interpreter_orderly
  rw [found] at result
  obtain ⟨last, ⟨first, inside, anchored, path⟩, accepts, same⟩ :=
    (Search.Reaches.sound valid rfl reached).best captures result.symm
  have size : last.captures.size = max slots 2 := by
    rw [path.size_captures]
    simp [origin, Query.blank]
  have end_le : last.offset ≤ text.size := path.offset_le inside
  refine ⟨first, last, path, accepts, anchored, ?_, same, ?_, ?_⟩
  · intro anchoredEnd
    have allowed := (Accepts.branches_eq accepts).2
    simp only [Query.mayMatchAt, anchoredEnd, Bool.true_and, Bool.not_eq_true',
      decide_eq_false_iff_not] at allowed
    omega
  · rw [same, Array.getElem?_setIfInBounds_self]
    rw [if_pos (by omega)]
  · intro unwritten
    rw [same, Array.getElem?_setIfInBounds_ne (by simp), path.getElem?_captures unwritten]
    simp [origin, Query.blank]

/-- The automaton of a letter that is captured and then repeated. -/
def doubled : Graph where
  automaton :=
    { insts := #[{ op := .capture, arg := 2, out := 1 },
        { op := .byteRange, lo := 0x61, hi := 0x61, out := 2 },
        { op := .capture, arg := 3, out := 3 }, { op := .byteRange, out := 4 }, { op := .accept }]
      start := 0
      slots := 4 }
  overlay := [(3, [{ kind := .backreference, arg := 1, out := 4 }])]

/-- With two records, the search for a doubled letter reports a path. -/
theorem path_of_doubled :
    ∃ final, Scheduler.Finishes doubled.summary.interpreter
        ((Scheduler.new doubled.size 2).init #[0x61, 0x61] doubled.summary.start 3 4) final ∧
      final.result? = some #[0, 2, 0, 1] ∧
      ∃ first last, doubled.Path ⟨#[0x61, 0x61], 3, 4, doubled.summary.start, 2⟩
          (doubled.origin ⟨#[0x61, 0x61], 3, 4, doubled.summary.start, 2⟩ first) last ∧
        doubled.Accepts ⟨#[0x61, 0x61], 3, 4, doubled.summary.start, 2⟩ last ∧
        #[0, 2, 0, 1] = last.captures.setIfInBounds 1 last.offset := by
  have finishes : Scheduler.Finishes doubled.summary.interpreter
      ((Scheduler.new doubled.size 2).init #[0x61, 0x61] doubled.summary.start 3 4)
      (((Scheduler.new doubled.size 2).init #[0x61, 0x61] doubled.summary.start 3 4).dispatch
        doubled.summary.interpreter 0).2 :=
    .done (Prod.ext (by decide +kernel) rfl)
  have found : (((Scheduler.new doubled.size 2).init #[0x61, 0x61] doubled.summary.start 3
      4).dispatch doubled.summary.interpreter 0).2.result? = some #[0, 2, 0, 1] := by
    decide +kernel
  obtain ⟨first, last, path, accepts, -, -, same, -⟩ := path_of_result? rfl finishes found
  exact ⟨_, finishes, found, first, last, path, accepts, same⟩

end Graph

end Rematch
