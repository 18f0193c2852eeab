import Flowchart.Proofs.Counterexample
import Flowchart.Proofs.Safety
import Flowchart.Proofs.Simulation

/-!
# More input

Numbers that are appended to the input make a difference only to threads that would have to wait for
them. All that happens without them can happen with them too, and leads to the same states but for
the numbers that are left. So a problem is simulated by the same problem with more input.

* `State.feed`: a state with more input.
* `Problem.simulation_feed`: a problem with more input simulates the problem.
* `Problem.more_input_keeps_violations`: what exploration reports about the two.
-/

namespace Flowchart

/-- The same state with more numbers to read, after those that are left. -/
def State.feed (s : State) (more : List Int64) : State :=
  { s with input := s.input ++ more }

namespace State

variable {p : Program} {s n : State} {t : ThreadId} {b : Block} {more : List Int64}

theorem feed_injective (more : List Int64) : Function.Injective (feed · more) := by
  intro s n h
  obtain ⟨hcounters, hstore, hinput, houtput, hdepth⟩ := State.mk.inj h
  exact State.ext hcounters hstore (List.append_cancel_right hinput) houtput hdepth

/-- A thread that can run has no need of the numbers that are appended. -/
theorem mem_ready_feed (h : (t, b) ∈ s.ready p) : (t, b) ∈ (s.feed more).ready p := by
  obtain ⟨c, hc, hready⟩ := mem_ready_iff.1 h
  obtain ⟨i, hi, hblock, hwait⟩ := Program.ready?_eq_some_iff.1 hready
  refine mem_ready_iff.2 ⟨c, hc, Program.ready?_eq_some_iff.2 ⟨i, hi, hblock, ?_⟩⟩
  refine hwait.imp_right ?_
  intro hne hnil
  exact hne (List.append_eq_nil_iff.1 hnil).1

theorem fire_feed (h : (t, b) ∈ s.ready p) (more : List Int64) :
    (s.feed more).fire t b = (s.fire t b).feed more := by
  obtain ⟨c, -, hready⟩ := mem_ready_iff.1 h
  obtain ⟨-, -, -, hwait⟩ := Program.ready?_eq_some_iff.1 hready
  obtain ⟨here, action⟩ := b
  cases action with
  | input var next =>
    -- The number that is read is the first one with or without the others.
    have hne : s.input ≠ [] := hwait.resolve_left (by simp [Action.isInput])
    obtain ⟨i, rest, hin⟩ := List.exists_cons_of_ne_nil hne
    simp [fire, feed, Action.effect, Action.next?, hin, State.set]
  | _ => rfl

end State

namespace Problem

theorem simulation_feed (q : Problem) (more : List Int64) :
    q.Simulation { q with input := q.input ++ more } id fun s s' => s' = s.feed more := by
  refine ⟨rfl, ?_, ?_⟩
  · rintro s s' t n rfl hturn
    obtain ⟨b, hb, rfl⟩ := State.exists_ready_of_mem_successors hturn
    refine ⟨(s.feed more).fire t b, ?_, State.fire_feed hb more⟩
    exact State.mem_successors_of_ready (State.mem_ready_feed hb)
  · rintro s s' rfl
    exact mismatch?_congr rfl rfl rfl

/-- **More input never hides a violation.** A schedule that is valid with some input is valid with
more of it, and leads to the same state but for the numbers that are appended. So what is verified
with the longer input is verified with the shorter one, and a counterexample for the shorter one
means that there is one for the longer input, whose schedule is the same or comes before. With the
longer input there are at least as many states and schedules up to each length. -/
theorem more_input_keeps_violations (q : Problem) (more : List Int64) :
    (∀ w s, q.Leads w s →
      { q with input := q.input ++ more }.Leads w { s with input := s.input ++ more }) ∧
    ({ q with input := q.input ++ more }.Verified → q.Verified) ∧
    (∀ r c, q.Ends none r → r.verdict = .refuted c →
      ∃ r' c', { q with input := q.input ++ more }.Ends none r' ∧ r'.verdict = .refuted c' ∧
        Schedule.NoLater c'.schedule c.schedule) ∧
    ∀ k, q.totalWithin k ≤ { q with input := q.input ++ more }.totalWithin k ∧
      q.schedulesWithin k ≤ { q with input := q.input ++ more }.schedulesWithin k := by
  have h := q.simulation_feed more
  refine ⟨?_, h.verified, ?_, ?_⟩
  · intro w s hw
    obtain ⟨s', hs', rfl⟩ := h.leads hw
    rwa [List.map_id] at hs'
  · intro r c hr hc
    obtain ⟨r', c', hr', hc', hschedule⟩ := h.exists_refuted hr hc
    rw [List.map_id] at hschedule
    exact ⟨r', c', hr', hc', hschedule⟩
  · intro k
    refine ⟨h.totalWithin_le ?_ k, h.schedulesWithin_le ?_ k⟩
    · rintro s n s' rfl heq
      exact State.feed_injective more heq
    · intro v w _ _ heq
      simpa using heq

/-- Without input the reader waits while the other thread prints 7, where 5 is expected first. There
is a counterexample with that input too. -/
theorem starved_fed_refuted :
    ∃ r c, Demo.starved.Ends none r ∧ r.verdict = .refuted c ∧ c.schedule = [⟨2⟩, ⟨2⟩, ⟨2⟩] ∧
      ∃ r' c', { Demo.starved with input := Demo.starved.input ++ [5] }.Ends none r' ∧
        r'.verdict = .refuted c' ∧ Schedule.NoLater c'.schedule [⟨2⟩, ⟨2⟩, ⟨2⟩] := by
  have hrun : (Demo.starved.explore 100 none).map (fun r =>
      r.verdict.counterexample?.map (·.schedule)) = some (some [⟨2⟩, ⟨2⟩, ⟨2⟩]) := by
    decide +kernel
  obtain ⟨r, c, hr, hc, hschedule⟩ := exists_refuted_of_explore hrun
  obtain ⟨-, -, hfed, -⟩ := more_input_keeps_violations Demo.starved [5]
  exact ⟨r, c, hr, hc, hschedule, hschedule ▸ hfed r c hr hc⟩

end Problem

end Flowchart
