import Flowchart.Exploration.Basic
import Flowchart.Proofs.Schedule

/-!
# The frontier of an exploration

What holds of an exploration whenever the loop looks at its queue. The links spell a schedule for
every state met, and the states are met in the order of these schedules. Every turn from an examined
state leads to a state that was met no later than by that turn. Together these facts say that the
queue is a frontier: a valid schedule stays among the examined states or passes through the queue,
and there it meets no state earlier than the queue has it.

## Main definitions

* `Exploration.met`, `Exploration.route`: the states in the order of meeting them, and how each was
  met.
* `Exploration.Linked`: what is true of queue and links, also while a state is being expanded.
* `Exploration.Frontier`: the invariant of the loop.

## Main results

* `Exploration.Frontier.at_begin`, `Exploration.Frontier.after_expand`: the invariant holds at
  first, and examining and expanding a state preserves it.
* `Exploration.Frontier.exists_queued`: a schedule to a state that was not examined is no earlier
  than the route of some state in the queue.
-/

namespace Flowchart

namespace Exploration

/-- The states met so far, in the order in which they were met. -/
def met (e : Exploration) : List State :=
  e.examined.reverse ++ e.queue

/-- The schedule by which a state was first met. -/
def route (e : Exploration) (s : State) : List ThreadId :=
  (e.trace s).map (·.thread)

/-! ### Traces along links -/

theorem turnsTo_append (e : Exploration) (n : Nat) (s : State) (later : List Turn) :
    e.turnsTo n s later = e.turnsTo n s [] ++ later := by
  induction n generalizing s later with
  | zero => rfl
  | succ n ih =>
    simp only [turnsTo]
    split
    · next link _ =>
      rw [ih link.parent (⟨link.thread, s.snapshot⟩ :: later),
        ih link.parent [⟨link.thread, s.snapshot⟩], List.append_assoc]
      rfl
    · rfl

/-- The last turn of a trace is the one that the link of the state records. -/
theorem trace_of_link {e : Exploration} {s : State} {l : Link}
    (hl : e.links[s]? = some (some l)) (hdepth : s.depth = l.parent.depth + 1) :
    e.trace s = e.trace l.parent ++ [⟨l.thread, s.snapshot⟩] := by
  rw [trace, hdepth, turnsTo, hl]
  exact turnsTo_append e _ _ _

theorem trace_of_unlinked {e : Exploration} {s : State} (hs : e.links[s]? = some none) :
    e.trace s = [] := by
  rw [trace]
  cases s.depth with
  | zero => rfl
  | succ n => simp only [turnsTo, hs]

/-! ### Queue and links -/

theorem mem_links_of_eq_some {e : Exploration} {s : State} {o : Option Link}
    (hs : e.links[s]? = some o) : s ∈ e.links := by
  rw [Std.ExtTreeMap.mem_iff_isSome_getElem?, hs]
  rfl

/-- What holds of queue and links at any time. -/
structure Linked (q : Problem) (e : Exploration) : Prop where
  /-- The states met are those examined and those in the queue. -/
  mem_links : ∀ s, s ∈ e.links ↔ s ∈ e.examined ∨ s ∈ e.queue
  /-- The initial state is met without a link. -/
  root : e.links[q.initial]? = some none
  /-- No other state is met without a link. -/
  root_only : ∀ s, e.links[s]? = some none → s = q.initial
  /-- A link is a turn from an examined state. -/
  link : ∀ (s : State) (l : Link), e.links[s]? = some (some l) →
    l.parent ∈ e.examined ∧ (l.thread, s) ∈ l.parent.successors q.program
  /-- States are met in the order of the schedules by which they are met. -/
  ordered : e.met.Pairwise fun a b => Schedule.Before (e.route a) (e.route b)

namespace Linked

variable {q : Problem} {e e' : Exploration} {s n : State} {t : ThreadId} {l : Link}

theorem root_mem (h : e.Linked q) : q.initial ∈ e.links :=
  mem_links_of_eq_some h.root

theorem mem_of_examined (h : e.Linked q) (hs : s ∈ e.examined) : s ∈ e.links :=
  (h.mem_links s).2 (.inl hs)

theorem mem_of_queue {rest : List State} (h : e.Linked q) (hq : e.queue = s :: rest) :
    s ∈ e.links := by
  rw [h.mem_links, hq]
  exact .inr List.mem_cons_self

theorem mem_of_link (h : e.Linked q) (hl : e.links[s]? = some (some l)) : l.parent ∈ e.links :=
  h.mem_of_examined (h.link s l hl).1

theorem depth_of_link (h : e.Linked q) (hl : e.links[s]? = some (some l)) :
    s.depth = l.parent.depth + 1 :=
  State.depth_of_mem_successors (h.link s l hl).2

theorem eq_initial_or_link (h : e.Linked q) (hs : s ∈ e.links) :
    s = q.initial ∨ ∃ l, e.links[s]? = some (some l) := by
  rw [Std.ExtTreeMap.mem_iff_isSome_getElem?, Option.isSome_iff_exists] at hs
  obtain ⟨o, ho⟩ := hs
  cases o with
  | none => exact .inl (h.root_only s ho)
  | some l => exact .inr ⟨l, ho⟩

/-- What holds of the initial state and passes from a state to those met from it holds of all states
met. -/
theorem induction {motive : State → Prop} (h : e.Linked q) (root : motive q.initial)
    (link : ∀ s l, e.links[s]? = some (some l) → motive l.parent → motive s) (s : State)
    (hs : s ∈ e.links) : motive s := by
  -- A link leads to a state whose depth is smaller by one, so the depth decreases.
  induction hd : s.depth using Nat.strong_induction_on generalizing s with
  | _ d ih =>
    rcases h.eq_initial_or_link hs with rfl | ⟨l, hl⟩
    · exact root
    · have := h.depth_of_link hl
      exact link s l hl (ih l.parent.depth (by omega) l.parent (h.mem_of_link hl) rfl)

theorem trace_link (h : e.Linked q) (hl : e.links[s]? = some (some l)) :
    e.trace s = e.trace l.parent ++ [⟨l.thread, s.snapshot⟩] :=
  trace_of_link hl (h.depth_of_link hl)

theorem route_link (h : e.Linked q) (hl : e.links[s]? = some (some l)) :
    e.route s = e.route l.parent ++ [l.thread] := by
  rw [route, h.trace_link hl, List.map_append]
  rfl

theorem route_root (h : e.Linked q) : e.route q.initial = [] := by
  rw [route, trace_of_unlinked h.root]
  rfl

/-- The schedule that the links spell for a state is valid and leads to it. -/
theorem leads (h : e.Linked q) (hs : s ∈ e.links) : q.Leads (e.route s) s := by
  refine h.induction (motive := fun s => q.Leads (e.route s) s) ?_ ?_ s hs
  · rw [h.route_root]
    exact .nil
  · intro s l hl hparent
    rw [h.route_link hl]
    exact Program.Leads.successor hparent (h.link s l hl).2

theorem length_route (h : e.Linked q) (hs : s ∈ e.links) : (e.route s).length = s.depth :=
  (h.leads hs).depth_eq_length.symm

theorem mem_met_iff (h : e.Linked q) : s ∈ e.met ↔ s ∈ e.links := by
  rw [h.mem_links, met, List.mem_append, List.mem_reverse]

/-- No two states are met by the same schedule. -/
theorem nodup_routes (h : e.Linked q) : (e.met.map e.route).Nodup := by
  rw [List.Nodup, List.pairwise_map]
  refine h.ordered.imp ?_
  intro a b hab heq
  rw [heq] at hab
  exact Schedule.Before.irrefl _ hab

/-- No state is met twice. -/
theorem nodup_met (h : e.Linked q) : e.met.Nodup :=
  h.nodup_routes.of_map

end Linked

/-! ### Growth -/

/-- The exploration `e'` still has every link of `e`. -/
def Grows (e e' : Exploration) : Prop :=
  ∀ s ∈ e.links, e'.links[s]? = e.links[s]?

namespace Grows

variable {q : Problem} {e e' e'' : Exploration} {s : State}

theorem mem (hg : e.Grows e') (hs : s ∈ e.links) : s ∈ e'.links := by
  rw [Std.ExtTreeMap.mem_iff_isSome_getElem?, hg s hs]
  exact Std.ExtTreeMap.mem_iff_isSome_getElem?.1 hs

theorem trans (hg : e.Grows e') (hg' : e'.Grows e'') : e.Grows e'' :=
  fun s hs => (hg' s (hg.mem hs)).trans (hg s hs)

/-- Growth does not change how a state was met. -/
theorem trace_eq (hg : e.Grows e') (h : e.Linked q) (hs : s ∈ e.links) :
    e'.trace s = e.trace s := by
  refine h.induction (motive := fun s => e'.trace s = e.trace s) ?_ ?_ s hs
  · have hroot := (hg q.initial h.root_mem).trans h.root
    rw [trace_of_unlinked h.root, trace_of_unlinked hroot]
  · intro s l hl hparent
    have hl' := (hg s (mem_links_of_eq_some hl)).trans hl
    rw [h.trace_link hl, trace_of_link hl' (h.depth_of_link hl), hparent]

theorem route_eq (hg : e.Grows e') (h : e.Linked q) (hs : s ∈ e.links) :
    e'.route s = e.route s := by
  rw [route, hg.trace_eq h hs, route]

end Grows

/-! ### Noting a turn -/

section Discover

variable {q : Problem} {e : Exploration} {s n : State} {t : ThreadId}

theorem discover_of_mem (s : State) (t : ThreadId) (hn : n ∈ e.links) :
    discover s e (t, n) = e :=
  if_pos hn

theorem discover_of_not_mem (s : State) (t : ThreadId) (hn : n ∉ e.links) :
    discover s e (t, n) =
      { e with queue := e.queue ++ [n], links := e.links.insert n (some ⟨s, t⟩) } :=
  if_neg hn

@[simp]
theorem examined_discover (s : State) (e : Exploration) (turn : ThreadId × State) :
    (discover s e turn).examined = e.examined := by
  rw [discover]
  split
  · rfl
  · rfl

theorem mem_links_discover_iff {s m : State} {turn : ThreadId × State} :
    m ∈ (discover s e turn).links ↔ turn.2 = m ∨ m ∈ e.links := by
  rw [discover]
  split
  · next hn =>
    constructor
    · exact .inr
    · rintro (rfl | hm)
      · exact hn
      · exact hm
  · simp [Std.ExtTreeMap.mem_insert]

theorem met_discover (s : State) (t : ThreadId) (hn : n ∉ e.links) :
    (discover s e (t, n)).met = e.met ++ [n] := by
  rw [discover_of_not_mem s t hn, met, met, List.append_assoc]

theorem getElem?_links_discover (s : State) (t : ThreadId) (hn : n ∉ e.links) (m : State) :
    (discover s e (t, n)).links[m]? =
      if n = m then some (some ⟨s, t⟩) else e.links[m]? := by
  simp [discover_of_not_mem s t hn, Std.ExtTreeMap.getElem?_insert]

theorem grows_discover (s : State) (e : Exploration) (turn : ThreadId × State) :
    e.Grows (discover s e turn) := by
  intro m hm
  by_cases hn : turn.2 ∈ e.links
  · rw [discover_of_mem s turn.1 hn]
  · have hne : turn.2 ≠ m := fun heq => hn (heq ▸ hm)
    rw [getElem?_links_discover s turn.1 hn, if_neg hne]

theorem Linked.route_discover (h : e.Linked q) (hs : s ∈ e.examined)
    (hturn : (t, n) ∈ s.successors q.program) (hn : n ∉ e.links) :
    (discover s e (t, n)).route n = e.route s ++ [t] := by
  have hlink : (discover s e (t, n)).links[n]? = some (some ⟨s, t⟩) := by
    rw [getElem?_links_discover s t hn, if_pos rfl]
  have htrace := trace_of_link hlink (State.depth_of_mem_successors hturn)
  have hroute := (grows_discover s e (t, n)).route_eq h (h.mem_of_examined hs)
  rw [route, htrace, List.map_append]
  exact congrArg (· ++ [t]) hroute

theorem Linked.ordered_discover (h : e.Linked q) (hs : s ∈ e.examined)
    (hturn : (t, n) ∈ s.successors q.program) (hn : n ∉ e.links)
    (hafter : ∀ m ∈ e.links, Schedule.Before (e.route m) (e.route s ++ [t])) :
    (discover s e (t, n)).met.Pairwise fun a b =>
      Schedule.Before ((discover s e (t, n)).route a) ((discover s e (t, n)).route b) := by
  have hroute {m : State} (hm : m ∈ e.met) := (grows_discover s e (t, n)).route_eq h
    (h.mem_met_iff.1 hm)
  rw [met_discover s t hn, List.pairwise_append]
  refine ⟨?_, List.pairwise_singleton _ _, ?_⟩
  · refine h.ordered.imp_of_mem ?_
    intro a b ha hb hab
    rwa [hroute ha, hroute hb]
  · intro m hm n' hn'
    rw [List.mem_singleton] at hn'
    rw [hn', h.route_discover hs hturn hn, hroute hm]
    exact hafter m (h.mem_met_iff.1 hm)

/-- Noting a turn from an examined state keeps everything linked, provided that the turn comes after
all that was met before. -/
theorem Linked.after_discover (h : e.Linked q) (hs : s ∈ e.examined)
    (hturn : (t, n) ∈ s.successors q.program)
    (hafter : ∀ m ∈ e.links, Schedule.Before (e.route m) (e.route s ++ [t])) :
    (discover s e (t, n)).Linked q := by
  by_cases hn : n ∈ e.links
  · rw [discover_of_mem s t hn]
    exact h
  · have hlinks := getElem?_links_discover s t hn
    refine ⟨?_, ?_, ?_, ?_, h.ordered_discover hs hturn hn hafter⟩
    · intro m
      rw [mem_links_discover_iff, h.mem_links, discover_of_not_mem s t hn, List.mem_append,
        List.mem_singleton, @eq_comm _ m]
      tauto
    · have hne : n ≠ q.initial := fun heq => hn (heq ▸ h.root_mem)
      rw [hlinks, if_neg hne, h.root]
    · intro m hm
      rw [hlinks] at hm
      split at hm
      · cases hm
      · exact h.root_only m hm
    · intro m l hl
      rw [hlinks] at hl
      rw [examined_discover]
      split at hl
      · next heq =>
        cases hl
        exact ⟨hs, heq ▸ hturn⟩
      · exact h.link m l hl

/-- The state that a noted turn leads to was met by that turn at the latest. -/
theorem Linked.noLater_discover (h : e.Linked q) (hs : s ∈ e.examined)
    (hturn : (t, n) ∈ s.successors q.program)
    (hafter : ∀ m ∈ e.links, Schedule.Before (e.route m) (e.route s ++ [t])) :
    Schedule.NoLater ((discover s e (t, n)).route n) (e.route s ++ [t]) := by
  by_cases hn : n ∈ e.links
  · rw [discover_of_mem s t hn]
    exact .inr (hafter n hn)
  · exact .inl (h.route_discover hs hturn hn)

end Discover

/-! ### Examining and expanding a state -/

/-- The turns from `s` in a list lead to states that were met by these turns at the latest. -/
def Covers (e : Exploration) (s : State) (turns : List (ThreadId × State)) : Prop :=
  ∀ turn ∈ turns, turn.2 ∈ e.links ∧ Schedule.NoLater (e.route turn.2) (e.route s ++ [turn.1])

/-- The invariant of the loop. -/
structure Frontier (q : Problem) (e : Exploration) : Prop extends Linked q e where
  /-- All turns from examined states have been noted. -/
  expanded : ∀ s ∈ e.examined, e.Covers s (s.successors q.program)

section Expand

variable {q : Problem} {e e' : Exploration} {s : State} {rest : List State}
  {turns : List (ThreadId × State)}

theorem Covers.grows (hc : e.Covers s turns) (h : e.Linked q) (hs : s ∈ e.links)
    (hg : e.Grows e') : e'.Covers s turns := by
  intro turn hturn
  obtain ⟨hmem, hroute⟩ := hc turn hturn
  rw [hg.route_eq h hmem, hg.route_eq h hs]
  exact ⟨hg.mem hmem, hroute⟩

@[simp]
theorem examined_foldl_discover (s : State) (e : Exploration) (turns : List (ThreadId × State)) :
    (turns.foldl (discover s) e).examined = e.examined := by
  induction turns generalizing e with
  | nil => rfl
  | cons turn turns ih => rw [List.foldl_cons, ih, examined_discover]

/-- Noting turns of ascending threads, all of them after what was met before. -/
theorem Linked.foldl_discover (h : e.Linked q) (hs : s ∈ e.examined)
    (hturns : ∀ turn ∈ turns, turn ∈ s.successors q.program)
    (hsorted : turns.Pairwise fun a b => a.1 < b.1)
    (hafter : ∀ m ∈ e.links, ∀ turn ∈ turns,
      Schedule.Before (e.route m) (e.route s ++ [turn.1])) :
    (turns.foldl (discover s) e).Linked q ∧ e.Grows (turns.foldl (discover s) e) ∧
      (turns.foldl (discover s) e).Covers s turns := by
  induction turns generalizing e with
  | nil => exact ⟨h, fun _ _ => rfl, by simp [Covers]⟩
  | cons turn turns ih =>
    have hsmem := h.mem_of_examined hs
    have hturn := hturns turn List.mem_cons_self
    have hnow : ∀ m ∈ e.links, Schedule.Before (e.route m) (e.route s ++ [turn.1]) :=
      fun m hm => hafter m hm turn List.mem_cons_self
    have hg := grows_discover s e turn
    have h' : (discover s e turn).Linked q := h.after_discover hs hturn hnow
    have hnew : Schedule.NoLater ((discover s e turn).route turn.2)
        (e.route s ++ [turn.1]) := h.noLater_discover hs hturn hnow
    rw [List.pairwise_cons] at hsorted
    obtain ⟨hlinked, hgrows, hcovers⟩ := ih h' (by simpa using hs)
      (fun later hlater => hturns later (List.mem_cons_of_mem _ hlater)) hsorted.2 (by
        -- The turns still to come are after the one just noted, for their threads are larger.
        intro m hm later hlater
        rw [hg.route_eq h hsmem]
        have hlast : Schedule.Before (e.route s ++ [turn.1]) (e.route s ++ [later.1]) :=
          Schedule.before_snoc_of_lt _ (hsorted.1 later hlater)
        rcases mem_links_discover_iff.1 hm with rfl | hold
        · exact hnew.trans_before hlast
        · rw [hg.route_eq h hold]
          exact (hnow m hold).trans hlast)
    refine ⟨hlinked, hg.trans hgrows, ?_⟩
    have hfirst : (discover s e turn).Covers s [turn] := by
      intro turn' hturn'
      rw [List.mem_singleton] at hturn'
      rw [hturn', hg.route_eq h hsmem]
      exact ⟨mem_links_discover_iff.2 (.inl rfl), hnew⟩
    intro turn' hturn'
    rcases List.mem_cons.1 hturn' with rfl | hlater
    · exact hfirst.grows h' (hg.mem hsmem) hgrows turn' List.mem_cons_self
    · exact hcovers turn' hlater

theorem grows_examine (e : Exploration) (s : State) (rest : List State) :
    e.Grows (e.examine s rest) :=
  fun _ _ => rfl

/-- To examine a state changes no link, so every state keeps its trace. -/
theorem Linked.trace_examine {m : State} (h : e.Linked q) (hm : m ∈ e.links) (s : State)
    (rest : List State) : (e.examine s rest).trace m = e.trace m :=
  (grows_examine e s rest).trace_eq h hm

theorem met_examine (hq : e.queue = s :: rest) : (e.examine s rest).met = e.met := by
  simp [met, examine, hq]

theorem Linked.after_examine (h : e.Linked q) (hq : e.queue = s :: rest) :
    (e.examine s rest).Linked q := by
  refine ⟨?_, h.root, h.root_only, ?_, ?_⟩
  · intro m
    have hmem := h.mem_links m
    rw [hq, List.mem_cons] at hmem
    change m ∈ e.links ↔ m ∈ s :: e.examined ∨ m ∈ rest
    rw [hmem, List.mem_cons]
    tauto
  · intro m l hl
    have hlink := h.link m l hl
    exact ⟨List.mem_cons_of_mem _ hlink.1, hlink.2⟩
  · rw [met_examine hq]
    refine h.ordered.imp_of_mem ?_
    intro a b ha hb hab
    have hg := grows_examine e s rest
    rwa [hg.route_eq h (h.mem_met_iff.1 ha), hg.route_eq h (h.mem_met_iff.1 hb)]

/-- A state that waits first in the queue was met after all examined states. -/
theorem Linked.before_of_examined (h : e.Linked q) (hq : e.queue = s :: rest) {m : State}
    (hm : m ∈ e.examined) : Schedule.Before (e.route m) (e.route s) := by
  have hordered := h.ordered
  rw [met, List.pairwise_append] at hordered
  exact hordered.2.2 m (List.mem_reverse.2 hm) s (by simp [hq])

/-- Every turn from the first state of the queue comes after all that was met. -/
theorem Linked.before_turn (h : e.Linked q) (hq : e.queue = s :: rest) {m : State}
    (hm : m ∈ e.links) (t : ThreadId) : Schedule.Before (e.route m) (e.route s ++ [t]) := by
  rcases h.eq_initial_or_link hm with rfl | ⟨l, hl⟩
  · rw [h.route_root]
    exact .of_length_lt (by simp)
  · -- The state was met from an examined one, whose route is before that of `s`.
    rw [h.route_link hl]
    exact (h.before_of_examined hq (h.link m l hl).1).snoc l.thread t

namespace Frontier

theorem at_begin (q : Problem) : (begin q.initial).Frontier q := by
  have hlinks (s : State) :
      (begin q.initial).links[s]? = if q.initial = s then some none else none := by
    simp [begin, Std.ExtTreeMap.getElem?_insert]
  refine ⟨⟨?_, ?_, ?_, ?_, ?_⟩, ?_⟩
  · intro s
    simp [begin, Std.ExtTreeMap.mem_insert, @eq_comm _ s]
  · rw [hlinks, if_pos rfl]
  · intro s hs
    rw [hlinks] at hs
    split at hs
    · next heq => exact heq.symm
    · cases hs
  · intro s l hl
    rw [hlinks] at hl
    split at hl
    · cases hl
    · cases hl
  · simp [met, begin]
  · intro s hs
    cases hs

/-- The invariant is preserved when the first state of the queue is examined and expanded. -/
theorem after_expand (h : e.Frontier q) (hq : e.queue = s :: rest) :
    ((e.examine s rest).expand q.program s).Frontier q := by
  have hlinked := h.toLinked.after_examine hq
  have hg := grows_examine e s rest
  have hs : s ∈ (e.examine s rest).examined := List.mem_cons_self
  have hsmem := h.mem_of_queue hq
  obtain ⟨hlinked', hgrows, hcovers⟩ := hlinked.foldl_discover hs (fun _ hturn => hturn)
    (State.pairwise_successors q.program s) (by
      intro m hm turn _
      rw [hg.route_eq h.toLinked hm, hg.route_eq h.toLinked hsmem]
      exact h.before_turn hq hm turn.1)
  refine ⟨hlinked', ?_⟩
  intro m hm
  rw [Exploration.expand, examined_foldl_discover] at hm
  rcases List.mem_cons.1 hm with rfl | hm
  · exact hcovers
  · exact (h.expanded m hm).grows h.toLinked (h.mem_of_examined hm) (hg.trans hgrows)

end Frontier

end Expand

/-! ### Schedules and the frontier -/

namespace Frontier

variable {q : Problem} {e : Exploration} {s f : State} {rest : List State} {w : List ThreadId}

/-- A valid schedule leads to a state that was met by it at the latest, or else some state of the
queue was met earlier. -/
theorem met_or_queued (h : e.Frontier q) (hw : q.Leads w s) :
    (s ∈ e.links ∧ Schedule.NoLater (e.route s) w) ∨
      ∃ m ∈ e.queue, Schedule.Before (e.route m) w := by
  induction hw with
  | nil => exact .inl ⟨h.root_mem, .inl h.route_root⟩
  | @snoc w m t b before hrun hb ih =>
    rcases ih with ⟨hm, hroute⟩ | ⟨m', hm', hroute⟩
    · rcases (h.mem_links m).1 hm with hexamined | hqueue
      · -- All turns from `m` are noted, this one among them.
        have hturn : (t, m.fire t b) ∈ m.successors q.program :=
          State.mem_successors_iff.2 ⟨hrun, b, hb, rfl⟩
        obtain ⟨hmem, hnext⟩ := h.expanded m hexamined _ hturn
        exact .inl ⟨hmem, hnext.trans (hroute.snoc t)⟩
      · -- The schedule has come to the queue and goes beyond it.
        exact .inr ⟨m, hqueue, hroute.trans_before (Schedule.before_snoc w t)⟩
    · exact .inr ⟨m', hm', hroute.trans (Schedule.before_snoc w t)⟩

/-- A schedule to a state that was not examined is no earlier than the route of some state in the
queue. -/
theorem exists_queued (h : e.Frontier q) (hw : q.Leads w s) (hs : s ∉ e.examined) :
    ∃ m ∈ e.queue, Schedule.NoLater (e.route m) w := by
  rcases h.met_or_queued hw with ⟨hmem, hroute⟩ | ⟨m, hm, hroute⟩
  · rcases (h.mem_links s).1 hmem with hexamined | hqueue
    · exact absurd hexamined hs
    · exact ⟨s, hqueue, hroute⟩
  · exact ⟨m, hm, .inr hroute⟩

/-- The first state of the queue was met no later than by any schedule to a state that was not
examined. -/
theorem first_noLater (h : e.Frontier q) (hq : e.queue = f :: rest) (hw : q.Leads w s)
    (hs : s ∉ e.examined) : Schedule.NoLater (e.route f) w := by
  obtain ⟨m, hm, hroute⟩ := h.exists_queued hw hs
  rw [hq, List.mem_cons] at hm
  rcases hm with rfl | hm
  · exact hroute
  · have hordered := h.ordered
    rw [met, List.pairwise_append, hq, List.pairwise_cons] at hordered
    exact .inr (hordered.2.1.1 m hm |>.trans_noLater hroute)

/-- When the queue is empty, every valid schedule leads to an examined state. -/
theorem mem_examined_of_queue_eq_nil (h : e.Frontier q) (hq : e.queue = []) (hw : q.Leads w s) :
    s ∈ e.examined := by
  by_contra hs
  obtain ⟨m, hm, -⟩ := h.exists_queued hw hs
  rw [hq] at hm
  cases hm

/-- A schedule to a state that was not examined is as long at least as any examined state is
deep. -/
theorem depth_le_of_not_mem (h : e.Frontier q) (hw : q.Leads w s) (hs : s ∉ e.examined) {x : State}
    (hx : x ∈ e.examined) : x.depth ≤ w.length := by
  cases hq : e.queue with
  | nil => exact absurd (h.mem_examined_of_queue_eq_nil hq hw) hs
  | cons f rest =>
    calc x.depth = (e.route x).length := (h.length_route (h.mem_of_examined hx)).symm
      _ ≤ (e.route f).length := (h.before_of_examined hq hx).length_le
      _ ≤ w.length := (h.first_noLater hq hw hs).length_le

end Frontier

end Exploration

end Flowchart
