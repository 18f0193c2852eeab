import Flowchart.Proofs.Counterexample
import Flowchart.Proofs.Coverage
import Mathlib.Data.Set.Card

/-!
# The records of an exploration

An exploration keeps a queue, the links between states and a tally, and counts what it has examined.
These records agree with each other whenever the loop looks at its queue, and also when a run has
ended. What the counts of a run say follows from that, and so does that a walk along the links comes
back to the initial state.

## Main definitions

* `Exploration.Ledger`: what the records say about each other.
* `Exploration.WalksBack`: the walk that goes on as long as there is a link.
* `Exploration.Rooted`: every such walk ends at the initial state.

## Main results

* `Exploration.Linked.ledger`, `Exploration.Linked.rooted`: the records agree, and walks come back.
* `Problem.records_agree`: this along the loop and at the end of a run, and what the counts say.
-/

namespace Flowchart

namespace Exploration

variable {q : Problem} {e : Exploration} {s m : State} {turns : List Turn}

/-- What the records of an exploration say about each other. -/
structure Ledger (q : Problem) (e : Exploration) : Prop where
  /-- The states met are those examined and those in the queue. -/
  mem_links : ∀ s, s ∈ e.links ↔ s ∈ e.examined ∨ s ∈ e.queue
  /-- No state in the queue has been examined. -/
  disjoint : e.examined.Disjoint e.queue
  /-- No state is examined twice. -/
  nodup_examined : e.examined.Nodup
  /-- No state is twice in the queue. -/
  nodup_queue : e.queue.Nodup
  /-- The states in the queue are in the order of their depths. -/
  queue_ascending : e.queue.Pairwise fun a b => a.depth ≤ b.depth
  /-- The depths in the queue differ by one at most. -/
  queue_narrow : ∀ a ∈ e.queue, ∀ b ∈ e.queue, a.depth ≤ b.depth + 1
  /-- No state in the queue is less deep than an examined one. -/
  queue_deepest : ∀ a ∈ e.examined, ∀ b ∈ e.queue, a.depth ≤ b.depth
  /-- The tally has the number of examined states of each depth. -/
  tally : ∀ d, e.tally.getD d 0 = e.examined.countP (·.depth = d)
  /-- The initial state is the one state without a link. -/
  unlinked : ∀ s, e.links[s]? = some none ↔ s = q.initial
  /-- Every other state is linked to an examined one that is less deep by one, by a turn that leads
  from there to the state. -/
  linked : ∀ s ∈ e.links, s ≠ q.initial → ∃ p t, e.links[s]? = some (some ⟨p, t⟩) ∧
    p ∈ e.examined ∧ p.depth + 1 = s.depth ∧ (t, s) ∈ p.successors q.program

/-- The walk along the links from one state back to another one, where it ends because there is no
link, and the turns that it passes in the order of time. -/
inductive WalksBack (e : Exploration) : State → List Turn → State → Prop
  | stop {s : State} (unlinked : ∀ l, e.links[s]? ≠ some (some l)) : WalksBack e s [] s
  | back {s m : State} {l : Link} {turns : List Turn} (link : e.links[s]? = some (some l))
      (rest : WalksBack e l.parent turns m) :
      WalksBack e s (turns ++ [⟨l.thread, s.snapshot⟩]) m

/-- The walk from every state met ends at the initial state, after as many links as the state is
deep, and passes the turns of its trace. -/
def Rooted (q : Problem) (e : Exploration) : Prop :=
  ∀ s ∈ e.links, (e.trace s).length = s.depth ∧
    ∀ turns m, e.WalksBack s turns m ↔ turns = e.trace s ∧ m = q.initial

/-! ### Records that agree -/

theorem Linked.depths_ascending (h : e.Linked q) :
    e.met.Pairwise fun a b => a.depth ≤ b.depth := by
  refine h.ordered.imp_of_mem ?_
  intro a b ha hb hab
  rw [← h.length_route (h.mem_met_iff.1 ha), ← h.length_route (h.mem_met_iff.1 hb)]
  exact hab.length_le

/-- A state was met from an examined one, so it is deeper by one at most than any state in the
queue. -/
theorem Linked.depth_le_succ (h : e.Linked q) (hs : s ∈ e.links) (hm : m ∈ e.queue) :
    s.depth ≤ m.depth + 1 := by
  rcases h.eq_initial_or_link hs with rfl | ⟨l, hl⟩
  · exact Nat.zero_le _
  · have hparent := (h.link s l hl).1
    have hle : l.parent.depth ≤ m.depth := by
      have hascending := h.depths_ascending
      rw [met, List.pairwise_append] at hascending
      exact hascending.2.2 _ (List.mem_reverse.2 hparent) m hm
    have hdepth := h.depth_of_link hl
    omega

theorem Linked.ledger (h : e.Linked q) (hcounted : e.Counted) : e.Ledger q := by
  have hnodup := h.nodup_met
  have hascending := h.depths_ascending
  rw [met, List.nodup_append', List.nodup_reverse] at hnodup
  rw [met, List.pairwise_append] at hascending
  obtain ⟨hexamined, hqueue, hdisjoint⟩ := hnodup
  obtain ⟨-, hsorted, hdeepest⟩ := hascending
  refine ⟨h.mem_links, ?_, hexamined, hqueue, hsorted, ?_, ?_, hcounted, ?_, ?_⟩
  · intro s hs hs'
    exact hdisjoint (List.mem_reverse.2 hs) hs'
  · intro a ha b hb
    exact h.depth_le_succ ((h.mem_links a).2 (.inr ha)) hb
  · intro a ha b hb
    exact hdeepest a (List.mem_reverse.2 ha) b hb
  · intro s
    refine ⟨h.root_only s, ?_⟩
    rintro rfl
    exact h.root
  · intro s hs hne
    obtain ⟨l, hl⟩ := (h.eq_initial_or_link hs).resolve_left hne
    obtain ⟨hparent, hturn⟩ := h.link s l hl
    exact ⟨l.parent, l.thread, hl, hparent, (h.depth_of_link hl).symm, hturn⟩

/-! ### Walks along the links -/

theorem WalksBack.unique {turns' : List Turn} {m' : State} (h : e.WalksBack s turns m)
    (h' : e.WalksBack s turns' m') : turns = turns' ∧ m = m' := by
  induction h generalizing turns' with
  | stop hnone =>
    cases h' with
    | stop _ => exact ⟨rfl, rfl⟩
    | back hl _ => exact absurd hl (hnone _)
  | back hl _ ih =>
    cases h' with
    | stop hnone => exact absurd hl (hnone _)
    | back hl' hrest' =>
      obtain rfl := Option.some.inj (Option.some.inj (hl.symm.trans hl'))
      obtain ⟨rfl, rfl⟩ := ih hrest'
      exact ⟨rfl, rfl⟩

theorem Linked.walksBack (h : e.Linked q) (hs : s ∈ e.links) :
    e.WalksBack s (e.trace s) q.initial := by
  refine h.induction (motive := fun s => e.WalksBack s (e.trace s) q.initial) ?_ ?_ s hs
  · rw [trace_of_unlinked h.root]
    refine .stop ?_
    intro l
    simp [h.root]
  · intro s l hl ih
    rw [h.trace_link hl]
    exact .back hl ih

theorem Linked.rooted (h : e.Linked q) : e.Rooted q := by
  intro s hs
  refine ⟨h.length_trace hs, ?_⟩
  intro turns m
  constructor
  · intro hwalk
    exact hwalk.unique (h.walksBack hs)
  · rintro ⟨rfl, rfl⟩
    exact h.walksBack hs

/-! ### Counts -/

theorem Linked.explored_add_length_queue (h : e.Linked q) :
    e.explored + e.queue.length = e.visited := by
  rw [h.visited_eq_length_met, met, List.length_append, List.length_reverse, explored]

end Exploration

namespace Problem

variable {q : Problem} {e : Exploration} {r : Run} {limit : Option Nat} {c : Counterexample}

theorem Attains.ledger (h : q.Attains e) : e.Ledger q :=
  h.frontier.toLinked.ledger h.counted

/-- A run that verifies its problem has examined every reachable state once. -/
theorem Ends.encard_reachable (h : q.Ends limit r) (hv : r.verdict = .verified) :
    {s | q.Reachable s}.encard = r.exploration.explored := by
  have hset : {s | q.Reachable s} = (r.exploration.examined.toFinset : Set State) := by
    ext s
    rw [Set.mem_ofPred_eq, List.coe_toFinset, Set.mem_ofPred_eq]
    constructor
    · intro hs
      obtain ⟨w, hw⟩ := reachable_iff_leads.1 hs
      exact h.mem_examined_of_verified hv hw
    · exact h.linked.reachable
  rw [hset, Set.encard_coe_eq_coe_finsetCard,
    List.toFinset_card_of_nodup h.linked.nodup_examined, Exploration.explored]

/-- The trace of a counterexample is what the walk back from the reported state passes. -/
theorem Ends.walksBack_of_refuted (h : q.Ends limit r) (hc : r.verdict = .refuted c) :
    ∃ s, c.state = s.snapshot ∧ r.exploration.WalksBack s c.trace q.initial ∧
      c.trace.length = s.depth := by
  have hlinked := h.linked
  obtain ⟨e, he, ⟨-, rfl⟩ | ⟨-, rfl⟩ | ⟨s, rest, m, hq, hm, rfl⟩⟩ := h.cases
  · cases hc
  · cases hc
  · cases hc
    have hs := he.frontier.mem_of_queue hq
    refine ⟨s, rfl, ?_, he.frontier.length_trace hs⟩
    rw [← he.frontier.trace_examine hs s rest]
    exact hlinked.walksBack hs

/-- **The records of an exploration agree.** They do so whenever the loop looks at its queue and at
the end of a run, and the walk back from every state met ends at the initial state. The states
examined, which the tally adds up to, and those left in the queue are all that were met. A run that
verifies its problem leaves none in the queue and has met every reachable state. -/
theorem records_agree (q : Problem) :
    (∀ e, q.Attains e → e.Ledger q ∧ e.Rooted q) ∧
    ∀ limit r, q.Ends limit r →
      r.exploration.Ledger q ∧ r.exploration.Rooted q ∧
      r.exploration.explored = (r.exploration.tally.toList.map (·.2)).sum ∧
      r.exploration.explored + r.exploration.queue.length = r.exploration.visited ∧
      (r.verdict = .verified → r.exploration.queue = [] ∧
        r.exploration.visited = {s | q.Reachable s}.encard ∧
        r.exploration.explored = {s | q.Reachable s}.encard) ∧
      ∀ c, r.verdict = .refuted c → ∃ s, c.state = s.snapshot ∧
        r.exploration.WalksBack s c.trace q.initial ∧ c.trace.length = s.depth := by
  constructor
  · intro e he
    exact ⟨he.ledger, he.frontier.toLinked.rooted⟩
  · intro limit r hr
    refine ⟨hr.linked.ledger hr.counted, hr.linked.rooted, hr.counted.total_tally.symm,
      hr.linked.explored_add_length_queue, ?_, fun c hc => hr.walksBack_of_refuted hc⟩
    intro hv
    refine ⟨(hr.attains_of_verified hv).2, ?_, (hr.encard_reachable hv).symm⟩
    rw [hr.visited_eq_explored_of_verified hv, hr.encard_reachable hv]

/-- The race leaves nine states in the queue, and the independent threads leave none. -/
theorem race_and_independent_records :
    (Exploration.begin Demo.Scenario.race.posed.initial).Ledger Demo.Scenario.race.posed ∧
    (∃ r c, Demo.Scenario.race.posed.Ends none r ∧ r.verdict = .refuted c ∧
      r.exploration.explored = 10 ∧ r.exploration.visited = 19 ∧ r.exploration.queue.length = 9 ∧
      ∃ s, r.exploration.WalksBack s c.trace Demo.Scenario.race.posed.initial) ∧
    ∃ r, Demo.Scenario.independent.posed.Ends none r ∧ r.verdict = .verified ∧
      {s | Demo.Scenario.independent.posed.Reachable s}.encard = 25 := by
  obtain ⟨hloop, hrace⟩ := records_agree Demo.Scenario.race.posed
  obtain ⟨-, hindependent⟩ := records_agree Demo.Scenario.independent.posed
  refine ⟨(hloop _ .begin).1, ?_, ?_⟩
  · have hrun : (Demo.Scenario.race.posed.explore 100 none).map (fun r =>
        (r.verdict.counterexample?.isSome, r.exploration.explored, r.exploration.visited)) =
        some (true, 10, 19) := by
      decide +kernel
    obtain ⟨r, hr, hcounts⟩ := Option.map_eq_some_iff.1 hrun
    simp only [Prod.mk.injEq] at hcounts
    obtain ⟨hfound, hexplored, hvisited⟩ := hcounts
    obtain ⟨-, -, -, hqueue, -, hwalk⟩ := hrace none r ⟨100, hr⟩
    cases hv : r.verdict with
    | refuted c =>
      obtain ⟨s, -, hback, -⟩ := hwalk c hv
      exact ⟨r, c, ⟨100, hr⟩, hv, hexplored, hvisited, by omega, s, hback⟩
    | verified => simp [hv, Verdict.counterexample?] at hfound
    | stopped => simp [hv, Verdict.counterexample?] at hfound
  · have hrun : (Demo.Scenario.independent.posed.explore 100 none).map (fun r =>
        (r.verdict, r.exploration.explored)) = some (.verified, 25) := by
      decide +kernel
    obtain ⟨r, hr, hcounts⟩ := Option.map_eq_some_iff.1 hrun
    obtain ⟨hv, hexplored⟩ := Prod.mk.inj hcounts
    obtain ⟨-, -, -, -, hall, -⟩ := hindependent none r ⟨100, hr⟩
    obtain ⟨-, -, hreachable⟩ := hall hv
    refine ⟨r, ⟨100, hr⟩, hv, ?_⟩
    rw [← hreachable, hexplored]
    rfl

end Problem

end Flowchart
