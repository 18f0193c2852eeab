import Flowchart.Proofs.Counterexample
import Flowchart.Proofs.Lockstep
import Flowchart.Proofs.Safety

/-!
# Blocks that control cannot get to

Control enters a thread at its entry and goes from a block to one of its targets. The numbers it can
get to are the closure of the entry under targets, whether or not there is a block at each of them.
The counters of a program stay within that closure, so two programs that agree there take the same
turns through the same states, whatever other blocks they have.

## Main definitions

* `Thread.InReach`: the numbers that control can get to.
* `Program.SameFlow`: programs that agree on them.

## Main results

* `State.InReach.fire`: counters stay in reach.
* `Problem.exploreFrom_congr`: explorations that take the same turns are the same.
* `Problem.unreached_blocks_immaterial`: blocks out of reach make no difference.
-/

namespace Flowchart

/-- The race with a block in its reader that nothing leads to and that leads nowhere. -/
def Demo.litteredRace : Program :=
  (Demo.Outline.program
    { name := "littered"
      declared := ["t2", "x", "t1"]
      threads := [(⟨1⟩, Demo.writer "t1"), (⟨2⟩, Demo.writer "t2"),
        (⟨3⟩, [⟨⟨0⟩, .start ⟨1⟩⟩, ⟨⟨1⟩, .print "x" ⟨2⟩⟩, ⟨⟨2⟩, .finish⟩,
          ⟨⟨7⟩, .print "t1" ⟨9⟩⟩])] }).toOption.get (by decide +kernel)

/-- Control can get to the number: it is the entry of the thread, or a target of a block that
control can get to. -/
inductive Thread.InReach (t : Thread) : BlockId → Prop
  | entry {i : BlockId} (start : t.start? = some i) : InReach t i
  | target {i j : BlockId} {b : Block} (before : InReach t i) (block : t.block? i = some b)
      (mem : j ∈ b.action.targets) : InReach t j

/-- A list of numbers that has the entry, and with a block its targets, has all that are in
reach. -/
theorem Thread.InReach.mem_of_closed {t : Thread} {i : BlockId} {region : List BlockId}
    (h : t.InReach i) (hentry : ∀ j, t.start? = some j → j ∈ region)
    (hclosed : ∀ b ∈ t.blocks, b.id ∈ region → ∀ j ∈ b.action.targets, j ∈ region) :
    i ∈ region := by
  induction h with
  | entry start => exact hentry _ start
  | target _ block mem ih =>
    obtain ⟨hb, rfl⟩ := Thread.block?_eq_some_iff.1 block
    exact hclosed _ hb ih _ mem

/-! ### Threads that take turns -/

theorem Program.mem_threadIds_iff {p : Program} {i : ThreadId} :
    i ∈ p.threadIds ↔ ∃ t, p.thread? i = some t := by
  rw [threadIds, Std.ExtTreeMap.mem_keys, Std.ExtTreeMap.mem_iff_isSome_getElem?,
    Option.isSome_iff_exists]
  rfl

/-- The current block of a thread of the program is one of its own blocks. -/
theorem Program.current_eq_ok_some_iff_of_mem {p : Program} {s : State} {t : Thread} {b : Block}
    (ht : t ∈ p.threadList) :
    p.current s t.id = .ok (some b) ↔
      ∃ i, s.counters[t.id]? = some (some i) ∧ t.block? i = some b := by
  simp only [current_eq_ok_some_iff, block?, mem_threadList.1 ht, Option.bind_some]

namespace State

variable {p : Program} {s n : State} {t : ThreadId} {b : Block}

theorem exists_thread_of_mem_ready (h : (t, b) ∈ s.ready p) :
    ∃ thread ∈ p.threadList, thread.id = t ∧ b ∈ thread.blocks := by
  obtain ⟨i, -, hblock⟩ := Program.current_eq_ok_some_iff.1 (current_of_mem_ready h)
  obtain ⟨thread, hthread, hid, hb, -⟩ := Program.block?_eq_some_iff.1 hblock
  exact ⟨thread, hthread, hid, hb⟩

theorem mem_threadIds_of_mem_successors (h : (t, n) ∈ s.successors p) : t ∈ p.threadIds := by
  obtain ⟨b, hb, -⟩ := exists_ready_of_mem_successors h
  obtain ⟨thread, hthread, rfl, -⟩ := exists_thread_of_mem_ready hb
  exact Program.mem_threadIds_iff.2 ⟨thread, Program.mem_threadList.1 hthread⟩

end State

theorem Problem.mem_threadIds_of_leads {q : Problem} {s : State} {w : List ThreadId} {i : ThreadId}
    (hw : q.Leads w s) (hi : i ∈ w) : i ∈ q.program.threadIds := by
  induction hw with
  | nil => cases hi
  | snoc _ hrun hb ih =>
    rcases List.mem_append.1 hi with hi | hi
    · exact ih hi
    · rw [List.mem_singleton.1 hi]
      exact State.mem_threadIds_of_mem_successors (State.mem_successors_iff.2 ⟨hrun, _, hb, rfl⟩)

/-! ### Programs that agree in reach -/

/-- The programs have threads with the same numbers and declare the same variables. Threads with one
number have the same entry and the same blocks in reach of it. -/
structure Program.SameFlow (p p' : Program) : Prop where
  threadIds : p.threadIds = p'.threadIds
  declared : ∀ name, name ∈ p.declared ↔ name ∈ p'.declared
  entry : ∀ i t t', p.thread? i = some t → p'.thread? i = some t' → t.start? = t'.start?
  block : ∀ i t t', p.thread? i = some t → p'.thread? i = some t' →
    ∀ j, t.InReach j → t.block? j = t'.block? j

namespace Program.SameFlow

variable {p p' : Program} {i : ThreadId} {t : Thread}

theorem exists_thread (h : p.SameFlow p') (ht : p.thread? i = some t) :
    ∃ t', p'.thread? i = some t' := by
  rw [← mem_threadIds_iff, ← h.threadIds, mem_threadIds_iff]
  exact ⟨t, ht⟩

theorem thread?_eq_none (h : p.SameFlow p') (hi : p.thread? i = none) : p'.thread? i = none := by
  rw [← Option.not_isSome_iff_eq_none, Option.isSome_iff_exists, ← mem_threadIds_iff,
    ← h.threadIds, mem_threadIds_iff, hi]
  simp

end Program.SameFlow

/-! ### Counters stay in reach -/

/-- The counters of the state are in reach. -/
def State.InReach (p : Program) (s : State) : Prop :=
  ∀ i t j, p.thread? i = some t → s.counters[i]? = some (some j) → t.InReach j

namespace State.InReach

variable {p p' : Program} {s n : State} {t : ThreadId} {b : Block}

theorem fire (h : s.InReach p) (hb : p.current s t = .ok (some b)) : (s.fire t b).InReach p := by
  intro i thread j hthread hj
  rw [getElem?_counters_fire] at hj
  split at hj
  · next heq =>
    subst heq
    obtain ⟨here, hhere, hblock⟩ := Program.current_eq_ok_some_iff.1 hb
    rw [Program.block?, hthread, Option.bind_some] at hblock
    have hreach := h t thread here hthread hhere
    -- A starved INPUT would leave the counter where it is, which is in reach as well.
    rcases Action.mem_targets_of_next? (Option.some.inj hj) with htarget | hstay
    · exact hreach.target hblock htarget
    · rw [hstay, (Thread.block?_eq_some_iff.1 hblock).2]
      exact hreach
  · exact h i thread j hthread hj

theorem successor (h : s.InReach p) (hturn : (t, n) ∈ s.successors p) : n.InReach p := by
  obtain ⟨-, b, hb, rfl⟩ := State.mem_successors_iff.1 hturn
  exact h.fire hb

/-- What can run is looked up in reach. -/
theorem successors_eq (h : s.InReach p) (hp : p.SameFlow p') :
    s.successors p = s.successors p' := by
  have hblock : ∀ i j, s.counters[i]? = some (some j) → p.block? i j = p'.block? i j := by
    intro i j hj
    cases hthread : p.thread? i with
    | none => rw [Program.block?, Program.block?, hthread, hp.thread?_eq_none hthread]
    | some thread =>
      obtain ⟨thread', hthread'⟩ := hp.exists_thread hthread
      rw [Program.block?, Program.block?, hthread, hthread']
      exact hp.block i thread thread' hthread hthread' j (h i thread j hthread hj)
  have hready : s.ready p = s.ready p' := by
    apply List.filterMap_congr
    rintro ⟨i, counter⟩ hentry
    rw [Std.ExtTreeMap.mem_toList_iff_getElem?_eq_some] at hentry
    cases counter with
    | none => rfl
    | some j => simp only [Program.ready?, Option.bind_some, hblock i j hentry]
  rw [successors, successors, hready]

end State.InReach

namespace Problem

variable {q q' : Problem} {e : Exploration}

theorem counters_initial_eq (q : Problem) :
    q.initial.counters = .ofList (q.program.threadIds.map fun i =>
      (i, (q.program.thread? i).bind Thread.start?)) := by
  rw [← q.program.map_id_threadList, List.map_map]
  show Std.ExtTreeMap.ofList (q.program.threadList.map fun t => (t.id, t.start?)) = _
  congr 1
  apply List.map_congr_left
  intro t ht
  simp [Program.mem_threadList.1 ht]

theorem inReach_initial (q : Problem) : q.initial.InReach q.program := by
  intro i t j ht hj
  have hid : t.id = i := q.program.filed i t ht
  subst hid
  rw [counters_initial (Program.mem_threadList.2 ht), Option.some.injEq] at hj
  exact .entry hj

theorem initial_eq_of_sameFlow (h : q.program.SameFlow q'.program) (hinput : q.input = q'.input) :
    q.initial = q'.initial := by
  apply State.ext
  · rw [counters_initial_eq, counters_initial_eq, ← h.threadIds]
    congr 1
    apply List.map_congr_left
    intro i hi
    obtain ⟨t, ht⟩ := Program.mem_threadIds_iff.1 hi
    obtain ⟨t', ht'⟩ := h.exists_thread ht
    rw [ht, ht', Option.bind_some, Option.bind_some, h.entry i t t' ht ht']
  · apply Std.ExtTreeMap.ext_getElem?
    intro name
    rw [getElem?_store_initial, getElem?_store_initial]
    simp only [h.declared]
  · exact hinput
  · rfl
  · rfl

/-! ### The same turns -/

theorem mem_queue_foldl_discover {s m : State} {turns : List (ThreadId × State)}
    (h : m ∈ (turns.foldl (Exploration.discover s) e).queue) :
    m ∈ e.queue ∨ ∃ turn ∈ turns, turn.2 = m := by
  induction turns generalizing e with
  | nil => exact .inl h
  | cons turn turns ih =>
    rcases ih h with hqueue | ⟨turn', hturn', rfl⟩
    · by_cases hnew : turn.2 ∈ e.links
      · rw [Exploration.discover_of_mem s turn.1 hnew] at hqueue
        exact .inl hqueue
      · rw [Exploration.discover_of_not_mem s turn.1 hnew] at hqueue
        rcases List.mem_append.1 hqueue with hold | hlast
        · exact .inl hold
        · exact .inr ⟨turn, List.mem_cons_self, (List.mem_singleton.1 hlast).symm⟩
    · exact .inr ⟨turn', List.mem_cons_of_mem _ hturn', rfl⟩

/-- Explorations are the same if the turns are the same from all states that come into the queue. -/
theorem exploreFrom_congr {I : State → Prop} (hexpected : q.expected = q'.expected)
    (hturns : ∀ s, I s → s.successors q.program = s.successors q'.program)
    (hclosed : ∀ s, I s → ∀ turn ∈ s.successors q.program, I turn.2)
    (he : ∀ s ∈ e.queue, I s) (fuel : Nat) (limit : Option Nat) :
    q.exploreFrom fuel limit e = q'.exploreFrom fuel limit e := by
  induction fuel generalizing limit e with
  | zero => rfl
  | succ fuel ih =>
    have hprogress : q.progress (limit == some 0) e = q'.progress (limit == some 0) e := by
      rw [progress_eq, progress_eq]
      split
      · rfl
      · rcases hq : e.queue with _ | ⟨s, rest⟩
        · rfl
        · have hs : I s := he s (by simp [hq])
          simp only [Exploration.expand, hturns s hs, mismatch?_congr (s := s) hexpected rfl rfl]
    rw [exploreFrom, exploreFrom, ← hprogress]
    split
    · rfl
    · next e' hmore =>
      obtain ⟨-, s, rest, hq, -, rfl⟩ := progress_eq_more_iff.1 hmore
      refine ih ?_ _
      intro m hm
      rcases mem_queue_foldl_discover hm with hrest | ⟨turn, hturn, rfl⟩
      · exact he m (hq ▸ List.mem_cons_of_mem s hrest)
      · exact hclosed s (he s (by simp [hq])) turn hturn

theorem explore_eq_of_sameFlow (h : q.program.SameFlow q'.program) (hinput : q.input = q'.input)
    (hexpected : q.expected = q'.expected) (fuel : Nat) (limit : Option Nat) :
    q.explore fuel limit = q'.explore fuel limit := by
  have hbegin : ∀ s ∈ (Exploration.begin q.initial).queue, s.InReach q.program := by
    intro s hs
    rw [List.mem_singleton.1 hs]
    exact q.inReach_initial
  rw [explore, explore, ← initial_eq_of_sameFlow h hinput]
  exact exploreFrom_congr hexpected (fun s hs => hs.successors_eq h)
    (fun s hs turn hturn => hs.successor hturn) hbegin fuel limit

theorem lockstep_of_sameFlow (h : q.program.SameFlow q'.program) (hinput : q.input = q'.input)
    (hexpected : q.expected = q'.expected) :
    q.Lockstep q' id fun s s' => s = s' ∧ s.InReach q.program := by
  refine ⟨⟨initial_eq_of_sameFlow h hinput, q.inReach_initial⟩, ?_, ?_, ?_, ?_⟩
  · rintro s _ ⟨rfl, hs⟩
    rw [← hs.successors_eq h, List.forall₂_same]
    intro turn hturn
    exact ⟨rfl, rfl, hs.successor hturn⟩
  · rintro s _ ⟨rfl, -⟩
    exact mismatch?_congr hexpected rfl rfl
  · rintro s n _ ⟨rfl, -⟩ ⟨rfl, -⟩
    rfl
  · rintro s n n' ⟨rfl, -⟩ ⟨rfl, -⟩
    rfl

/-- **Blocks out of reach do not matter.** Let two programs have threads with the same numbers, the
same declared variables, the same entries, and the same block or none at every number that control
can get to. Then their executions begin in the same state, and an exploration, stopped or not, ends
for both in the same run: the same verdict with the same counterexample, and the same states met and
examined. There are as many states and schedules up to each length. -/
theorem unreached_blocks_immaterial (q : Problem) (p : Program) (h : q.program.SameFlow p) :
    q.initial = { q with program := p }.initial ∧
    (∀ limit r, q.Ends limit r ↔ { q with program := p }.Ends limit r) ∧
    ∀ k, q.totalWithin k = { q with program := p }.totalWithin k ∧
      q.schedulesWithin k = { q with program := p }.schedulesWithin k := by
  have hinitial : q.initial = { q with program := p }.initial := initial_eq_of_sameFlow h rfl
  have hlockstep : q.Lockstep { q with program := p } id _ := lockstep_of_sameFlow h rfl rfl
  refine ⟨hinitial, ?_, ?_⟩
  · intro limit r
    have hexplore (fuel : Nat) :
        q.explore fuel limit = { q with program := p }.explore fuel limit := by
      apply explore_eq_of_sameFlow
      · exact h
      · rfl
      · rfl
    exact exists_congr fun fuel => by rw [hexplore fuel]
  · intro k
    exact ⟨hlockstep.totalWithin_eq k,
      schedulesWithin_eq_of_simulation hlockstep.simulation hlockstep.symm.simulation k⟩

/-- Control stays at the numbers up to 5, where the race has what it has without the litter. -/
theorem littered_race_refuted :
    Demo.Scenario.race.posed.program.SameFlow Demo.litteredRace ∧
    Demo.litteredRace.block? ⟨3⟩ ⟨7⟩ ≠ Demo.Scenario.race.posed.program.block? ⟨3⟩ ⟨7⟩ ∧
    ∃ r c, { Demo.Scenario.race.posed with program := Demo.litteredRace }.Ends none r ∧
      r.verdict = .refuted c ∧ c.schedule = [⟨3⟩, ⟨3⟩] := by
  have hthreads : ∀ t ∈ Demo.Scenario.race.posed.program.threadList,
      ∀ t' ∈ Demo.litteredRace.threadList, t.id = t'.id → t.start? = t'.start? ∧
      t.start? = some ⟨0⟩ ∧
      (∀ b ∈ t.blocks, b.id ∈ [⟨0⟩, ⟨1⟩, ⟨2⟩, ⟨3⟩, ⟨4⟩, ⟨5⟩] → ∀ j ∈ b.action.targets,
        j ∈ ([⟨0⟩, ⟨1⟩, ⟨2⟩, ⟨3⟩, ⟨4⟩, ⟨5⟩] : List BlockId)) ∧
      ∀ j ∈ [⟨0⟩, ⟨1⟩, ⟨2⟩, ⟨3⟩, ⟨4⟩, ⟨5⟩], t.block? j = t'.block? j := by
    decide +kernel
  have hdeclared : Demo.Scenario.race.posed.program.declared.Perm Demo.litteredRace.declared := by
    decide +kernel
  have hflow : Demo.Scenario.race.posed.program.SameFlow Demo.litteredRace := by
    have hsame (i : ThreadId) (t t' : Thread)
        (ht : Demo.Scenario.race.posed.program.thread? i = some t)
        (ht' : Demo.litteredRace.thread? i = some t') := by
      have hid := Program.filed _ i t ht
      have hid' := Program.filed _ i t' ht'
      exact hthreads t (Program.mem_threadList.2 (hid ▸ ht)) t'
        (Program.mem_threadList.2 (hid' ▸ ht')) (hid.trans hid'.symm)
    refine ⟨by decide +kernel, fun name => hdeclared.mem_iff, ?_, ?_⟩
    · intro i t t' ht ht'
      exact (hsame i t t' ht ht').1
    · intro i t t' ht ht' j hj
      obtain ⟨-, hstart, hclosed, hblock⟩ := hsame i t t' ht ht'
      refine hblock j (hj.mem_of_closed ?_ hclosed)
      intro k hk
      rw [hstart] at hk
      cases hk
      exact List.mem_cons_self
  obtain ⟨r, c, hr, hc, hschedule, -⟩ := race_refuted
  obtain ⟨-, hends, -⟩ := unreached_blocks_immaterial _ Demo.litteredRace hflow
  exact ⟨hflow, by decide +kernel, r, c, (hends none r).1 hr, hc, hschedule⟩

end Problem

end Flowchart
