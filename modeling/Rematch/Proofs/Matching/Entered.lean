import Rematch.Proofs.Matching.Exploration
import Rematch.Proofs.Matching.Hops

/-!
Where threads are entered. Every event of a closure comes at the end of a path and resumes where a
thread can be entered, so the closure of every thread of a search is an exploration from there.
-/

namespace Rematch

open List

/-- The instruction that an event resumes at is one where a thread can be entered. -/
def Event.Resumes (graph : Graph) : Event → Prop
  | .wait entry _ _ _ => graph.Entry entry
  | _ => True

/-- An event that is carried out: the text is long enough, or a match may end. -/
def Event.Fits (sched : Scheduler) : Event → Prop
  | .wait _ count _ _ => ¬(count ≤ 0 ∨ (sched.remaining : Int) < count)
  | .accept _ _ => sched.mayMatch = true
  | .fail => True

def Task.Reachable (graph : Graph) : Task → Prop
  | .visit pc | .perform pc => graph.Reachable pc
  | .options pc exts => graph.Reachable pc ∧
      ∃ all, graph.extensionsAt? pc = some all ∧ exts ⊆ all

def Event.Follows (graph : Graph) (query : Query) (offset : Nat) (origin : Point) : Event → Prop
  | .wait entry count captures _ => graph.Path query origin ⟨entry, offset + count.toNat, captures⟩
  | .accept captures _ =>
    ∃ pc, graph.Path query origin ⟨pc, offset, captures⟩ ∧
      graph.Accepts query ⟨pc, offset, captures⟩
  | .fail => False

def Task.Follows (graph : Graph) (query : Query) (offset : Nat) (origin : Point)
    (captures : Captures) : Task → Prop
  | .visit pc | .perform pc => graph.Path query origin ⟨pc, offset, captures⟩
  | .options _ exts => ∀ ext ∈ exts, ∀ count,
      ext.evaluate? query.text offset captures = some count →
      graph.Path query origin ⟨ext.out.toNat, offset + count, captures⟩

/-- What holds of every event of a closure that begins at a point. -/
structure Event.Arises (graph : Graph) (sched : Scheduler) (origin : Point) (event : Event) :
    Prop where
  resumes : event.Resumes graph
  fits : sched.offset ≤ sched.text.size → event.Fits sched
  follows : event.Follows graph sched.query sched.offset origin

namespace Graph

variable {g : Graph} {q : Query} {s : Scheduler} {p : List Nat} {task : Task} {st st' : Exploration}
variable {c : Captures} {k pc : Nat} {o : Point}

theorem Stretch.entry {r : List Nat} (ok : g.Valid)
    (stretch : g.Stretch (pc :: r)) (reach : g.Reachable pc) :
    g.Entry (g.exit (g.inst ((pc :: r).getLastD pc)).out) := by
  have last : (pc :: r).getLastD pc ∈ pc :: r := by
    rw [getLastD_eq_getLast?, getLast?_eq_some_getLast (by simp)]
    exact getLast_mem _
  exact .bytes (stretch.reachable ok reach _ last) (stretch.bytes _ last)

theorem follows_options {es : List Extension} (got : g.extensionsAt? pc = some es)
    (follows : (Task.perform pc).Follows g q k o c) : (Task.options pc es).Follows g q k o c := by
  intro ext mem n ev
  refine follows.tail ?_
  simp only [Moves, branches, got]
  exact mem_filterMap.mpr ⟨ext, mem, by simp only [Extension.branch?, ev]; rfl⟩

theorem follows_visit (ok : g.Valid) {t : Nat} {c' : Captures} {branches : List Branch}
    (follows : (Task.perform pc).Follows g q k o c) (offers : g.branches q ⟨pc, k, c⟩ = branches)
    (mem : .step ⟨t, k, c'⟩ ∈ branches) : (Task.visit (g.follow t)).Follows g q k o c' :=
  (follows.tail (show .step _ ∈ g.branches q _ from offers ▸ mem)).trans (path_follow ok _ _ _)

theorem spanMatches_le {t : Text} {sp : List Nat}
    (matching : g.summary.spanMatches t k sp = true) (within : k ≤ t.size) :
    k + sp.length ≤ t.size := by
  induction sp generalizing k with
  | nil => exact within
  | cons pc r ih =>
    have parts : (t[k]?).any (g.inst pc).accepts = true ∧
        g.summary.spanMatches t (k + 1) r = true := by
      simpa [Analysis.spanMatches] using matching
    have lt : k < t.size := by
      rcases Nat.lt_or_ge k t.size with lt | outside
      · exact lt
      · simp [Array.getElem?_eq_none outside] at parts
    have le := ih parts.2 lt
    simp only [length_cons]
    omega

theorem arises_of_explores (ok : g.Valid) (explores : Explores g.summary s p task st st')
    (run : st.accepted = false) (reach : task.Reachable g)
    (follows : task.Follows g s.query s.offset o st.scope.captures) :
    ∀ ev ∈ st'.events, ev ∈ st.events ∨ ev.Arises g s o := by
  have inRest {pc : Nat} {ext : Extension} {r : List Extension}
      (reach : (Task.options pc (ext :: r)).Reachable g) :
      (Task.options pc r).Reachable g := by
    obtain ⟨reach, all, got, mem⟩ := reach
    exact ⟨reach, all, got, fun ext inRest => mem (.tail _ inRest)⟩
  induction explores with
  | halted | blocked | stop | done => exact fun ev mem => .inl mem
  | enter _ _ enters _ ih =>
    obtain ⟨kept, acc, eq, -⟩ := Exploration.enters_kept enters
    rw [← eq]
    exact ih (acc.trans run) reach (by rw [kept.captures_eq]; exact follows)
  | extensions got _ ih => exact ih run ⟨reach, _, got, Subset.refl _⟩ (follows_options got follows)
  | fork offers firstListed secondListed fst snd firstIh secondIh =>
    have fromFirst := firstIh run (reach.successor ok firstListed)
      (follows_visit ok follows (offers _) (.head _))
    rcases fst.kept run with acc | ⟨still, kept⟩
    · rw [snd.eq_of_accepted (by simp) acc]
      exact fromFirst
    · have fromSecond := secondIh still (reach.successor ok secondListed) (by
        rw [kept.captures_eq]
        exact follows_visit ok follows (offers _) (.tail _ (.head _)))
      exact fun ev mem => (fromSecond ev mem).elim (fromFirst ev) .inr
  | @bytes _ pc state rng =>
    obtain ⟨stretch, r, parts⟩ := span_stretch g rng
    intro ev mem
    simp only [Analysis.exploreBytes] at mem
    split at mem
    · next matching =>
      rcases mem_cons.mp mem with rfl | earlier
      · rw [parts] at stretch matching ⊢
        refine .inr ⟨stretch.entry ok reach, fun within => ?_,
          Relation.ReflTransGen.trans follows (path_stretch ok stretch matching _)⟩
        have le := spanMatches_le matching within
        rw [length_cons] at le
        simp only [Event.Fits, Scheduler.remaining, length_cons]
        omega
      · exact .inl earlier
    · exact .inl mem
  | capture offers mem _ _ ih =>
    rw [Exploration.openScope_accepted, Exploration.openScope_events,
      Exploration.openScope_captures] at ih
    rw [Exploration.closeScope_events]
    exact ih run (reach.successor ok mem) (follows_visit ok follows (offers _) (.head _))
  | pass offers mem _ ih =>
    exact ih run (reach.successor ok mem) (follows_visit ok follows (offers _) (.head _))
  | @accept _ pc state offers allowed =>
    intro ev mem
    rcases mem_cons.mp mem with rfl | earlier
    · exact .inr ⟨trivial, fun _ => allowed, pc, follows, by rw [Accepts]; exact offers _ ▸ .head _⟩
    · exact .inl earlier
  | refuse _ _ _ ih => exact ih run (inRest reach) fun ext inRest => follows ext (.tail _ inRest)
  | stay _ evaluated fst others firstIh othersIh =>
    obtain ⟨lt, all, got, mem⟩ := id reach
    have fromFirst := firstIh run (lt.successor ok (by
        rw [successors_of_extensions got]
        exact mem_map.mpr ⟨_, mem (.head _), rfl⟩))
      ((follows _ (.head _) 0 evaluated).trans (path_follow ok _ _ _))
    rcases fst.kept run with acc | ⟨still, kept⟩
    · rw [others.eq_of_accepted (by simp) acc]
      exact fromFirst
    · have fromOthers := othersIh still (inRest reach) (by
        rw [kept.captures_eq]
        exact fun ext inRest => follows ext (.tail _ inRest))
      exact fun ev mem => (fromOthers ev mem).elim (fromFirst ev) .inr
  | wait _ evaluated _ ih =>
    obtain ⟨lt, all, got, mem⟩ := id reach
    intro ev new
    rcases ih run (inRest reach) (fun ext inRest => follows ext (.tail _ inRest)) ev new
      with earlier | arises
    · rcases mem_cons.mp earlier with rfl | earlier
      · have le := Extension.evaluate?_le evaluated (Nat.succ_pos _)
        refine .inr ⟨.extension lt got (mem (.head _)), fun within => ?_,
          (follows _ (.head _) _ evaluated).trans (path_follow ok _ _ _)⟩
        simp only [Event.Fits, Scheduler.remaining]
        omega
      · exact .inl earlier
    · exact .inr arises

theorem interpreter_explores (ok : g.Valid)
    (positioned : s.holding = Condition.holdingAt s.text s.offset) (entry : g.Entry pc) :
    ∃ st, Explores g.summary s [] (.visit pc) { scope := s.scope } st ∧
      g.summary.interpreter s pc = { events := st.events.reverse, scope := st.scope } ∧
      ∀ ev ∈ st.events.reverse, ev.Arises g s ⟨pc, s.offset, s.scope.captures⟩ := by
  have reach := entry.reachable ok
  have explores := explores_closure ok positioned entry
  refine ⟨g.summary.closure s pc, explores, ?_, fun ev mem => ?_⟩
  · rw [Analysis.interpreter, if_pos (show pc < g.summary.size from reach.lt ok)]
  · exact (arises_of_explores ok explores rfl reach .refl ev
      (mem_reverse.mp mem)).resolve_left (by simp)

end Graph

theorem Front.AbsorbsAll.forall {s : Scheduler} {evs : List Event} {f f' : Front}
    {holds : Pending → Prop} (abs : AbsorbsAll s evs f f')
    (new : ∀ e n c v, Event.wait e n c v ∈ evs →
      holds ⟨e, n.toNat - 1, v, c⟩) (old : ∀ t ∈ f.later ++ f.now, holds t) :
    ∀ t ∈ f'.later ++ f'.now, holds t := by
  induction abs with
  | nil => exact old
  | cons head tail ih =>
    apply ih fun e n c v hm => new e n c v (.tail _ hm)
    cases head with
    | wait =>
      intro t mem
      simp only [append_assoc, mem_append, mem_singleton] at mem old
      rcases mem with inLater | rfl | inNow
      · exact old t (.inl inLater)
      · exact new _ _ _ _ (.head _)
      · exact old t (.inr inNow)
    | misfit | lose | refuse => exact old
    | accept | loseMatch =>
      intro t mem
      rw [append_nil] at mem
      exact old t (mem_append_left _ mem)

namespace Search

variable {g : Graph} {q : Query} {first z : Search}

def Entered (graph : Graph) (search : Search) : Prop :=
  ∀ thread ∈ search.front.later ++ search.front.now, graph.Entry thread.entry

theorem Step.entered (ok : g.Valid) (start : q.start = g.start)
    (step : first.Step g.summary.interpreter q z) (ent : first.Entered g) : z.Entered g := by
  unfold Entered at ent
  cases step with
  | @postpone t l now best feq delayed =>
    rw [feq] at ent
    intro o mem
    simp only [append_assoc, mem_append, mem_cons, not_mem_nil, or_false]
      at mem ent
    rcases mem with inLater | rfl | inNow
    · exact ent o (.inl inLater)
    · exact ent t (.inr (.inl rfl))
    · exact ent o (.inr (.inr inNow))
  | @close t l now best v owner s feq due beg abs owned =>
    rw [feq] at ent
    have entry : g.Entry t.entry := ent t (by simp)
    obtain ⟨st, -, turn, arises⟩ := Graph.interpreter_explores ok beg.positioned entry
    rw [turn] at abs
    have others : ∀ o ∈ l ++ now, g.Entry o.entry := by
      intro o mem
      apply ent o
      simp only [mem_append, mem_cons] at mem ⊢
      exact mem.imp_right .inr
    exact abs.forall (fun _ _ _ _ hm => (arises _ hm).resumes) others
  | @advance l sd best feq unfinished seeded =>
    rw [feq] at ent
    intro o mem
    rcases mem_append.mp mem with inLater | inSeeds
    · simp at inLater
    rcases mem_append.mp inSeeds with inLater | inSeeds
    · exact ent o (mem_append_left _ inLater)
    · unfold Query.Seeds at seeded
      split at seeded
      · simp [seeded] at inSeeds
      · rcases seeded with rfl | ⟨-, rfl⟩
        · rw [mem_singleton.mp inSeeds]
          change g.Entry q.start
          rw [start]
          exact .start
        · simp at inSeeds

theorem entered_initial (start : q.start = g.start) : (initial q).Entered g := by
  intro t mem
  have only : t = q.seed 0 := by simpa [initial] using mem
  rw [only]
  change g.Entry q.start
  rw [start]
  exact .start

theorem Reaches.entered (ok : g.Valid) (start : q.start = g.start)
    (reached : (initial q).Reaches g.summary.interpreter q z) : z.Entered g := by
  induction reached with
  | refl => exact entered_initial start
  | tail _ step ih => exact step.entered ok start ih

end Search

end Rematch
