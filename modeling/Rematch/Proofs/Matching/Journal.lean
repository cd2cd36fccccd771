import Rematch.Proofs.Matching.Tally
import Rematch.Proofs.Threads.History

/-!
The journal of a search: which instructions are entered at which offset. Without backreferences none
is entered twice at an offset. A shared instruction is noted when it is entered. Any other has one
way in, so whatever enters it, a thread that starts, a run that ends or the instruction before, does
so once.
-/

namespace Rematch

open List Rematch.Graph

namespace Scheduler

def entered (sched : Scheduler) (analysis : Analysis) : List (Nat × Nat) :=
  match sched.next? with
  | none => []
  | some (id, rest) =>
    let taken := sched.take id rest
    if 0 < (taken.thread id).delay then []
    else
      (analysis.closureEntries (taken.begin id) ((taken.begin id).thread id).entry).map
        (sched.offset, ·)

/-- All that is entered in a number of turns, and the scheduler after them. -/
def journal (analysis : Analysis) : Nat → Scheduler → List (Nat × Nat) × Scheduler
  | 0, sched => ([], sched)
  | turns + 1, sched =>
    match sched.turn? analysis.interpreter with
    | none => ([], sched)
    | some after =>
      let (log, last) := journal analysis turns after
      (sched.entered analysis ++ log, last)

end Scheduler

/-- When and where the threads of an offset and of the next one resume. -/
def Front.arrivals (offset : Nat) (front : Front) : List (Nat × Nat) :=
  front.now.map (fun thread => (offset + thread.delay, thread.entry)) ++
    front.later.map (fun thread => (offset + 1 + thread.delay, thread.entry))

theorem Front.AbsorbsAll.count_arrivals_le {s : Scheduler} {evs : List Event}
    {f f' : Front} (abs : AbsorbsAll s evs f f') (k t len : Nat) :
    (f'.arrivals k).count (k + len, t) ≤
      (f.arrivals k).count (k + len, t) + (evs.filterMap Event.wait?).count (t, len) := by
  induction abs with
  | nil => simp
  | @cons ev evs a b d head tail ih =>
    refine ih.trans ?_
    have waits : (evs.filterMap Event.wait?).count (t, len) ≤
        ((ev :: evs).filterMap Event.wait?).count (t, len) :=
      ((sublist_cons_self ev evs).filterMap _).count_le _
    cases head with
    | @wait e v n c f fits =>
      have later : k + 1 + (n.toNat - 1) = k + n.toNat := by omega
      simp only [arrivals, map_append, map_cons, map_nil, count_append,
        filterMap_cons, Event.wait?, count_cons, count_nil, later, beq_iff_eq,
        Prod.mk.injEq, Nat.add_left_cancel_iff, and_comm]
      omega
    | misfit | lose | refuse => exact Nat.add_le_add_left waits _
    | accept | loseMatch =>
      refine Nat.add_le_add (Sublist.count_le _ ?_) waits
      exact sublist_append_right _ _

/-- What a search and its journal say of how instructions are entered. -/
structure Search.Accounts (graph : Graph) (log : List (Nat × Nat)) (search : Search) : Prop where
  threads : ∀ thread ∈ search.front.later ++ search.front.now,
    (graph.Block thread.entry ∧ graph.Entry thread.entry) ∧ thread.visit = 0
  entries : ∀ entry ∈ log, graph.Block entry.2 ∧ entry.1 ≤ search.offset
  /-- One thread starts at each offset. -/
  start : graph.summary.isShared graph.start = false → ∀ offset,
    (log ++ search.front.arrivals search.offset).count (offset, graph.start) ≤
      if offset ≤ search.offset then 1 else 0
  /-- What comes after a run is entered once for each time the run is. -/
  runs : ∀ head target length, graph.Block head → graph.leads? head = some (target, length) →
    graph.summary.isShared target = false → ∀ offset,
    (log ++ search.front.arrivals search.offset).count (offset, target) ≤
      if length ≤ offset then log.count (offset - length, head) else 0
  /-- What comes after another instruction is entered once for each time that one is. -/
  stays : ∀ pc target, graph.Block pc → graph.Stays pc target →
    graph.summary.isShared target = false → ∀ offset, log.count (offset, target) ≤
      log.count (offset, pc)
  shared : ∀ pc, graph.summary.isShared pc = true → ∀ offset, log.count (offset, pc) ≤ 1
  marked : search.front.now = [] ∨ ∀ pc, graph.summary.isShared pc = true →
    log.count (search.offset, pc) ≤
      if search.owner = some 0 then (search.visited.testBit pc).toNat else 0

namespace Search.Accounts

variable {g : Graph} {log : List (Nat × Nat)} {s : Search} {pc : Nat}
variable {l : List Pending} {best : Option Captures} {q : Query}

theorem count_le_one (ok : g.Valid) (accounts : s.Accounts g log)
    (block : g.Block pc) (k : Nat) : log.count (k, pc) ≤ 1 := by
  have journal (e : Nat × Nat) : log.count e ≤ (log ++ s.front.arrivals s.offset).count e :=
    (sublist_append_left _ _).count_le _
  refine block.induction ok (motive := fun pc => ∀ k, log.count (k, pc) ≤ 1)
    (fun k => ?_) (fun pc block ih t stays k => ?_)
    (fun pc block ih isBytes k => ?_) k
  · cases shared : g.summary.isShared g.start with
    | true => exact accounts.shared _ shared k
    | false =>
      refine ((journal _).trans (accounts.start shared k)).trans ?_
      split <;> omega
  · cases shared : g.summary.isShared t with
    | true => exact accounts.shared _ shared k
    | false => exact (accounts.stays pc t block stays shared k).trans (ih k)
  · cases shared : g.summary.isShared
        (g.exit (g.inst ((g.summary.span pc).getLastD pc)).out) with
    | true => exact accounts.shared _ shared k
    | false =>
      refine ((journal _).trans (accounts.runs pc _ (g.summary.span pc).length block
        (if_pos isBytes) shared k)).trans ?_
      split
      · exact ih _
      · omega

theorem nodup (ok : g.Valid) (accounts : s.Accounts g log) : log.Nodup := by
  refine nodup_iff_count_le_one.mpr fun e => ?_
  by_cases mem : e ∈ log
  · exact accounts.count_le_one ok (accounts.entries e mem).1 e.1
  · rw [count_eq_zero.mpr mem]
    exact Nat.zero_le _

theorem initial (ok : g.Valid) (start_eq : q.start = g.start) :
    (Search.initial q).Accounts g [] := by
  have arrivals : (Search.initial q).front.arrivals 0 = [(0, g.start)] := by
    simp [Search.initial, Front.arrivals, Query.seed, start_eq]
  refine ⟨fun t mem => ?_, by simp, fun unshared k => ?_,
    fun h tgt len block leads unshared k => ?_, by simp, by simp, .inr (by simp)⟩
  · obtain rfl : t = q.seed 0 := by simpa [Search.initial] using mem
    rw [Query.seed, start_eq]
    exact ⟨⟨.start ok, .start⟩, rfl⟩
  · change ([] ++ (Search.initial q).front.arrivals 0).count _ ≤ if k ≤ 0 then 1 else 0
    rw [arrivals, nil_append, count_singleton]
    simp only [beq_iff_eq, Prod.mk.injEq, and_true]
    split <;> split <;> omega
  · obtain ⟨-, z, reach, -, edge⟩ := exists_edge_of_leads? ok block leads
    have notStart := ne_start_of_unshared ok unshared reach edge
    change ([] ++ (Search.initial q).front.arrivals 0).count _ ≤ _
    rw [arrivals, nil_append, count_singleton]
    simp [notStart.symm]

theorem postpone (accounts : s.Accounts g log) {t : Pending} {now : List Pending}
    (feq : s.front = ⟨l, t :: now, best⟩) (delayed : 0 < t.delay) : Accounts g log { s with
      front := ⟨l ++ [{ t with delay := t.delay - 1 }], now, best⟩ } := by
  have arrivals : (Front.mk (l ++ [{ t with delay := t.delay - 1 }]) now best).arrivals
      s.offset |>.Perm (s.front.arrivals s.offset) := by
    have eq : s.offset + 1 + (t.delay - 1) = s.offset + t.delay := by omega
    rw [feq]
    simp only [Front.arrivals, map_append, map_cons, map_nil, eq]
    rw [← append_assoc]
    exact perm_append_singleton _ _
  have n (e : Nat × Nat) := (arrivals.append_left log).count_eq e
  obtain ⟨threads, entries, start, runs, stays, shared, marked⟩ := accounts
  refine ⟨fun o mem => ?_, entries, fun unshared k => n _ ▸ start unshared k,
    fun h tgt len block leads unshared k =>
      n _ ▸ runs h tgt len block leads unshared k, stays, shared, .inr ?_⟩
  · rw [feq] at threads
    simp only [append_assoc, mem_append, mem_cons, not_mem_nil, or_false]
      at mem threads
    rcases mem with inLater | rfl | inNow
    · exact threads o (.inl inLater)
    · exact threads t (.inr (.inl rfl))
    · exact threads o (.inr (.inr inNow))
  · exact marked.resolve_left (by simp [feq])

theorem advance (ok : g.Valid) (accounts : s.Accounts g log)
    (start_eq : q.start = g.start) {sd : List Pending}
    (feq : s.front = ⟨l, [], best⟩) (seeded : q.Seeds (s.offset + 1) best sd) : Accounts g log
      { s with offset := s.offset + 1, front := ⟨[], l ++ sd, best⟩, owner := none } := by
  have seeds_eq : sd = [] ∨ sd = [q.seed (s.offset + 1)] := by
    unfold Query.Seeds at seeded
    split at seeded
    · exact .inl seeded
    · exact seeded.symm.imp_left And.right
  have n (k t : Nat) :
      (log ++ (Front.mk [] (l ++ sd) best).arrivals (s.offset + 1)).count (k, t) ≤
        (log ++ s.front.arrivals s.offset).count (k, t) +
          if k = s.offset + 1 ∧ t = g.start then 1 else 0 := by
    rw [feq]
    rcases seeds_eq with rfl | rfl
    · simp [Front.arrivals]
    · simp only [Front.arrivals, Query.seed, start_eq, map_append, map_cons, map_nil,
        append_nil, nil_append, count_append, count_cons, count_nil, Nat.add_zero,
        beq_iff_eq, Prod.mk.injEq, eq_comm (a := s.offset + 1), eq_comm (a := g.start)]
      omega
  have ahead (pc : Nat) : log.count (s.offset + 1, pc) = 0 := by
    refine count_eq_zero.mpr fun mem => ?_
    exact Nat.not_succ_le_self _ (accounts.entries _ mem).2
  obtain ⟨threads, entries, start, runs, stays, shared, marked⟩ := accounts
  refine ⟨fun th mem => ?_, fun e mem => ⟨(entries e mem).1,
    Nat.le_succ_of_le (entries e mem).2⟩, fun unshared k => ?_,
    fun h t len block leads unshared k => ?_, stays, shared, .inr fun pc _ => ?_⟩
  · rw [nil_append, mem_append] at mem
    rcases mem with inLater | inSeeds
    · exact threads th (by simp [feq, inLater])
    · rcases seeds_eq with rfl | rfl
      · simp at inSeeds
      · rw [mem_singleton.mp inSeeds, Query.seed, start_eq]
        exact ⟨⟨.start ok, .start⟩, rfl⟩
  · refine (n k g.start).trans ?_
    have le := start unshared k
    dsimp only
    split at le <;> split <;> split <;> omega
  · obtain ⟨-, z, reach, -, edge⟩ := exists_edge_of_leads? ok block leads
    have notStart := ne_start_of_unshared ok unshared reach edge
    have le := n k t
    simp only [notStart, and_false, if_false, Nat.add_zero] at le
    exact le.trans (runs h t len block leads unshared k)
  · dsimp only
    rw [ahead]
    exact Nat.zero_le _

section Closing

variable {t : Pending} {l now : List Pending} {best : Option Captures} {sched : Scheduler}
  {en : List Nat} {st : Exploration} {v : Front}

theorem count_map_offset (k : Nat) (en : List Nat) (e : Nat × Nat) :
    (en.map (k, ·)).count e = if e.1 = k then en.count e.2 else 0 := by
  induction en with
  | nil => simp
  | cons a r ih =>
    obtain ⟨j, pc⟩ := e
    rw [map_cons, count_cons, ih, count_cons]
    by_cases eq : j = k
    · simp [eq]
    · simp [eq, Ne.symm eq]

/-- What a closure adds to the journal and the arrivals, if the instruction is entered by threads
only. -/
theorem count_close (feq : s.front = ⟨l, t :: now, best⟩) (due : t.delay = 0)
    (tally : g.Tally [t.entry] en en { scope := sched.scope } st)
    (abs : Front.AbsorbsAll sched st.events.reverse ⟨l, now, best⟩ v) {tgt : Nat}
    (unshared : g.summary.isShared tgt = false) (alone : ∀ pc ∈ en, ¬g.Stays pc tgt) (k : Nat) :
    (log ++ en.map (s.offset, ·) ++ v.arrivals s.offset).count (k, tgt) ≤
      (log ++ s.front.arrivals s.offset).count (k, tgt) +
        if s.offset ≤ k then
          (en.filterMap g.leads?).count (tgt, k - s.offset)
        else 0 := by
  have visits : en.count tgt ≤ if t.entry = tgt then 1 else 0 := by
    have le := tally.visits_le tgt
    have none : (en.flatMap g.stays).count tgt = 0 := by
      refine count_eq_zero.mpr fun mem => ?_
      obtain ⟨pc, inEntered, stays⟩ := mem_flatMap.mp mem
      exact alone pc inEntered (mem_stays.mp stays)
    simpa only [none, count_singleton, Nat.add_zero, beq_iff_eq] using le
  have pre : (s.front.arrivals s.offset).count (k, tgt) =
      (if k = s.offset ∧ t.entry = tgt then 1 else 0) +
        ((Front.mk l now best).arrivals s.offset).count (k, tgt) := by
    rw [feq]
    simp only [Front.arrivals, map_cons, due, Nat.add_zero, cons_append, count_cons,
      beq_iff_eq, Prod.mk.injEq, eq_comm (a := s.offset)]
    omega
  rw [count_append, count_append, count_map_offset, count_append, pre]
  by_cases reached : s.offset ≤ k
  · rw [if_pos reached]
    obtain ⟨len, rfl⟩ := Nat.exists_eq_add_of_le reached
    have arrivals := abs.count_arrivals_le s.offset tgt len
    have waits := tally.waits_le tgt len unshared
    have eq : (st.events.reverse.filterMap Event.wait?).count (tgt, len) =
        st.waits.count (tgt, len) :=
      ((reverse_perm _).filterMap _).count_eq _
    rw [Nat.add_sub_cancel_left]
    simp only [Exploration.waits, filterMap_nil, count_nil] at waits eq
    split <;> split at visits <;> simp_all <;> omega
  · have none : (v.arrivals s.offset).count (k, tgt) = 0 := by
      refine count_eq_zero.mpr fun mem => ?_
      simp only [Front.arrivals, mem_append, mem_map, Prod.mk.injEq] at mem
      rcases mem with ⟨o, -, arrives, -⟩ | ⟨o, -, arrives, -⟩ <;> omega
    rw [none, if_neg (by omega)]
    omega

theorem close (ok : g.Valid) (accounts : s.Accounts g log)
    (feq : s.front = ⟨l, t :: now, best⟩) (due : t.delay = 0) (scope_eq : sched.scope = s.scope t)
    (tally : g.Tally [t.entry] en en { scope := sched.scope } st)
    (abs : Front.AbsorbsAll sched st.events.reverse ⟨l, now, best⟩ v) {owner : Option Nat}
    (owned : v.now = [] ∨ owner = some t.visit) (lastVisitId : Nat) :
    Accounts g (log ++ en.map (s.offset, ·))
      { s with front := v, visited := st.scope.visited, owner, lastVisitId } := by
  have count := @count_close g log s t l now best sched en st v feq due tally abs
  obtain ⟨threads, entries, start, runs, stays, shared, marked⟩ := accounts
  rw [feq] at threads
  obtain ⟨⟨block, entry⟩, visit⟩ := threads t (by simp)
  have start_plain : Exploration.Plain { scope := sched.scope } :=
    ⟨by rw [scope_eq]; exact visit, by simp⟩
  -- Together with what was entered before at the offset, the marks bound what is entered now.
  have noted : ∀ pc, g.summary.isShared pc = true →
      log.count (s.offset, pc) + en.count pc ≤ (st.scope.visited.testBit pc).toNat := by
    intro pc isShared
    have le := marked.resolve_left (by simp [feq]) pc isShared
    have more := tally.mark_le pc isShared
    simp only [Exploration.mark, scope_eq, Search.scope, visit] at more
    split at le
    · next eq =>
      rw [if_pos eq] at more
      omega
    · omega
  have atMostOne (bit : Bool) : bit.toNat ≤ 1 := by cases bit <;> decide
  refine ⟨?_, ?_, fun unshared k => ?_, fun h tgt len isBlock leads unshared k => ?_,
    fun pc tgt isBlock edge unshared k => ?_, fun pc isShared k => ?_, ?_⟩
  · refine abs.forall (fun e n c vi mem => ?_) (fun o mem => threads o ?_)
    · have mem := mem_reverse.mp mem
      refine ⟨?_, (tally.plain start_plain).2 _ mem⟩
      exact (tally.resumes (e, n.toNat) (mem_filterMap.mpr ⟨_, mem, rfl⟩)).resolve_left
        (by simp [Exploration.waits])
    · simp only [mem_append, mem_cons] at mem ⊢
      exact mem.imp_right .inr
  · intro entry mem
    rcases mem_append.mp mem with earlier | new
    · exact entries entry earlier
    · obtain ⟨pc, inEntered, rfl⟩ := mem_map.mp new
      exact ⟨tally.blocks pc inEntered, Nat.le_refl _⟩
  · have alone : ∀ pc ∈ en, ¬g.Stays pc g.start := fun pc inEntered stays =>
      ne_start_of_unshared ok unshared (tally.blocks pc inEntered).reachable stays.listed rfl
    have none (len : Nat) : (en.filterMap g.leads?).count (g.start, len) = 0 := by
      refine count_eq_zero.mpr fun mem => ?_
      obtain ⟨pc, inEntered, leads⟩ := mem_filterMap.mp mem
      obtain ⟨-, z, reach, -, edge⟩ := exists_edge_of_leads? ok (tally.blocks pc inEntered) leads
      exact ne_start_of_unshared ok unshared reach edge rfl
    have le := count unshared alone k
    simp only [none, ite_self, Nat.add_zero] at le
    exact le.trans (start unshared k)
  · obtain ⟨-, z, reach, isBytes, edge⟩ := exists_edge_of_leads? ok isBlock leads
    have alone : ∀ pc ∈ en, ¬g.Stays pc tgt := by
      intro pc inEntered stays
      have eq := eq_of_unshared ok unshared (tally.blocks pc inEntered).reachable reach
        stays.listed edge
      have notBytes := stays.notBytes
      rw [eq, isBytes] at notBytes
      simp at notBytes
    have only (len' : Nat) : (en.filterMap g.leads?).count (tgt, len') ≤
        if len' = len then en.count h else 0 := by
      have eq : ∀ j ∈ en, g.leads? j = some (tgt, len') → j = h := fun j inEntered leads' =>
          eq_of_leads? ok (tally.blocks j inEntered) isBlock leads' leads unshared
      split
      · exact count_filterMap_le eq
      · next ne =>
        refine Nat.le_of_eq (count_eq_zero.mpr fun mem => ?_)
        obtain ⟨j, inEntered, leads'⟩ := mem_filterMap.mp mem
        obtain rfl := eq j inEntered leads'
        rw [leads, Option.some.injEq, Prod.mk.injEq] at leads'
        exact ne leads'.2.symm
    have new : (if s.offset ≤ k then
        (en.filterMap g.leads?).count (tgt, k - s.offset) else 0) ≤
          if s.offset + len = k then en.count h else 0 := by
      have le := only (k - s.offset)
      split at le <;> split <;> split <;> omega
    refine (count unshared alone k).trans
      ((Nat.add_le_add (runs h tgt len isBlock leads unshared k) new).trans ?_)
    rw [count_append, count_map_offset]
    dsimp only
    by_cases fits : len ≤ k
    · rw [if_pos fits, if_pos fits]
      split <;> split <;> omega
    · rw [if_neg fits, if_neg fits, if_neg (by omega)]
  · have le := tally.visits_le tgt
    have notRoot : t.entry ≠ tgt := by
      rintro rfl
      have isShared := isShared_of_stays ok entry isBlock.reachable edge
      simp [unshared] at isShared
    have through : (en.flatMap g.stays).count tgt ≤ en.count pc := by
      refine count_flatMap_le ?_ fun j inEntered mem => ?_
      · unfold Graph.stays
        split
        · simp
        · exact count_successors_le ok unshared isBlock.reachable
      · exact eq_of_unshared ok unshared (tally.blocks j inEntered).reachable
          isBlock.reachable (mem_stays.mp mem).listed edge.listed
    have old := stays pc tgt isBlock edge unshared k
    simp only [count_singleton, beq_iff_eq, notRoot, if_false, Nat.zero_add] at le
    simp only [count_append, count_map_offset]
    split <;> omega
  · rw [count_append, count_map_offset]
    dsimp only
    split
    · next eq => exact eq ▸ (noted pc isShared).trans (atMostOne _)
    · exact shared pc isShared k
  · rcases owned with empty | own
    · exact .inl empty
    · right
      intro pc isShared
      rw [own, visit, if_pos rfl, count_append, count_map_offset, if_pos rfl]
      exact noted pc isShared

end Closing

end Search.Accounts

namespace Scheduler

variable {g : Graph} {q : Query} {s : Search} {sched v : Scheduler} {log : List (Nat × Nat)}

section

variable (ok : g.Valid) (free : g.summary.backrefGroups = []) (start_eq : q.start = g.start)

include ok free start_eq

theorem Shows.accounts (shown : sched.Shows q s) (accounts : s.Accounts g log)
    (turned : sched.turn? g.summary.interpreter = some v) :
    ∃ s', v.Shows q s' ∧ s'.Accounts g (log ++ sched.entered g.summary) := by
  have ord := g.summary.interpreter_orderly
  have offset_eq : s.offset = sched.offset := by
    obtain ⟨n, now, won, -, rfl⟩ := shown.ranked
    rfl
  cases feq : s.front with
  | mk l due best =>
  cases due with
  | nil =>
    have none := shown.next?_eq_none_iff.mpr (by rw [feq])
    obtain ⟨s', step, shown'⟩ := shown.turn_orderly ord turned
    rw [entered, none, append_nil]
    refine ⟨s', shown', ?_⟩
    cases step with
    | advance feq _ seeded => exact accounts.advance ok start_eq feq seeded
    | postpone feq' | close feq' => simp [feq] at feq'
  | cons t due =>
    obtain ⟨id, r, fst, delay, waits, entry, beg, f, owner, abs, owned, shown'⟩ :=
      shown.step ord feq
    simp only [turn?, fst, delay, Option.some.injEq] at turned
    simp only [entered, fst, delay, entry]
    by_cases delayed : 0 < t.delay
    · obtain ⟨s', step, -, -, shown'⟩ := waits delayed
      rw [if_pos delayed] at turned ⊢
      rw [append_nil]
      refine ⟨s', turned ▸ shown', ?_⟩
      cases step with
      | postpone feq delayed => exact accounts.postpone feq delayed
      | close feq' due =>
        rw [feq, Front.mk.injEq, cons.injEq] at feq'
        rw [feq'.2.1.1, due] at delayed
        simp at delayed
      | advance feq' => simp [feq] at feq'
    · rw [if_neg delayed] at turned ⊢
      refine ⟨_, turned ▸ shown', ?_⟩
      obtain ⟨⟨block, -⟩, -⟩ := accounts.threads t (by simp [feq])
      have lt : t.entry < g.summary.size := block.reachable.lt ok
      generalize (sched.take id r).begin id = begun at beg abs
      have tally := @tally_explore g _ begun ok free (2 * g.summary.size + 1) block
        { scope := begun.scope }
      rw [Analysis.closureEntries, if_pos lt, ← offset_eq]
      rw [Analysis.interpreter, if_pos lt, Analysis.closure] at abs ⊢
      generalize g.summary.explore begun (2 * g.summary.size + 1) t.entry
        { scope := begun.scope } = st at tally abs ⊢
      exact accounts.close ok feq (by omega) beg.scope_eq tally abs owned _

theorem journal_accounts (turns : Nat) (shown : sched.Shows q s) (accounts : s.Accounts g log) :
    ∃ s' : Search, s'.Accounts g (log ++ (journal g.summary turns sched).1) := by
  induction turns generalizing sched s log with
  | zero => exact ⟨s, by simpa [journal] using accounts⟩
  | succ turns ih =>
    rw [journal]
    cases turned : sched.turn? g.summary.interpreter with
    | none => exact ⟨s, by simpa using accounts⟩
    | some t =>
      obtain ⟨s', shown', accounts'⟩ := shown.accounts ok free start_eq accounts turned
      obtain ⟨z, lastAccounts⟩ := ih shown' accounts'
      exact ⟨z, by simpa using lastAccounts⟩

end

theorem exists_journal {an : Analysis} {z : Scheduler} (turns : Turns an.interpreter sched z) :
    ∃ n, (journal an n sched).2 = z := by
  induction turns using Relation.ReflTransGen.head_induction_on with
  | refl => exact ⟨0, rfl⟩
  | head turned _ ih =>
    obtain ⟨n, reached⟩ := ih
    exact ⟨n + 1, by rw [journal, turned]; exact reached⟩

/-- Without backreferences a search enters no instruction twice at an offset, from its start to its
end. -/
theorem journal_nodup {graph : Graph} {sched : Scheduler} {analysis : Analysis}
    (accepted : graph.analyze = .ok analysis)
    (noBackrefs : graph.NoBackreferences) {maxThreads : Nat} {text : Text} {flags slots : Nat}
    (starts : sched = (new analysis.size maxThreads).init text analysis.start flags slots) :
    (∀ turns, (journal analysis turns sched).1.Nodup) ∧
      ∃ turns, (journal analysis turns sched).2.turn? analysis.interpreter = none ∧
        sched.dispatch analysis.interpreter 0 =
          (false, (journal analysis turns sched).2.noteDropped) := by
  obtain ⟨valid, rfl⟩ := Graph.analyze_eq_ok accepted
  have free := noBackrefs.backrefGroups_eq
  have shown := shows_init graph.summary.size maxThreads text graph.summary.start flags slots
  rw [← starts] at shown
  constructor
  · intro turns
    obtain ⟨last, accounts⟩ := journal_accounts valid free rfl turns shown (.initial valid rfl)
    exact accounts.nodup valid
  · obtain ⟨final, ends⟩ := dispatch_zero graph.summary.interpreter sched
    obtain ⟨last, turns, interrupted | ⟨finished, stops⟩⟩ :=
      dispatch_turns graph.summary.interpreter sched 0
    · simp [ends] at interrupted
    · obtain ⟨count, rfl⟩ := exists_journal turns
      exact ⟨count, stops, finished⟩

/-- The automaton of any number of `ab`. -/
def pairs : Graph where
  automaton :=
    { insts := #[{ op := .alt, out := 1, out1 := 3 },
        { op := .byteRange, lo := 0x61, hi := 0x61, out := 2 },
        { op := .byteRange, lo := 0x62, hi := 0x62, out := 0 }, { op := .accept }]
      start := 0
      slots := 2 }
  overlay := []

/-- Where a pair ends and a thread starts, the loop is entered once. -/
theorem journal_pairs : ∃ sched : Scheduler,
    sched = (new pairs.summary.size 0).init #[0x61, 0x62] pairs.summary.start 2 2 ∧
    pairs.analyze = .ok pairs.summary ∧ pairs.NoBackreferences ∧
    (journal pairs.summary 9 sched).1 =
      [(0, 0), (0, 1), (0, 3), (1, 0), (1, 1), (1, 3), (2, 0), (2, 1), (2, 3)] ∧
    (journal pairs.summary 9 sched).1.Nodup := by
  have accepted : pairs.analyze = .ok pairs.summary := Graph.analyze_of_validate (by decide +kernel)
  have noBackrefs : pairs.NoBackreferences := fun pc exts found => by
    simp [Graph.extensionsAt?, Overlay.find?, pairs] at found
  exact ⟨_, rfl, accepted, noBackrefs, by decide +kernel,
    (journal_nodup accepted noBackrefs rfl).1 9⟩

end Scheduler

end Rematch
