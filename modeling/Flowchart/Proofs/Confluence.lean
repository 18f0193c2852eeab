import Flowchart.Proofs.Expansion
import Flowchart.Proofs.Step
import Flowchart.Proofs.Verdict

/-!
# Independent steps and programs without races

Two steps of different threads are independent if neither writes a variable that the other one
mentions, not both print and not both wait for input. They can then be taken one after the other in
either order, and lead to the same state.

Threads that share no variable which one of them writes, of which one at most prints and one at most
reads the input, do not notice each other. Two turns that are possible in a state can then be taken
one after the other in either order, and lead to the same state. From this it follows that a
schedule which ends where no thread can run is as good as any other: every valid schedule can be
continued to the same state, and the continuation has the length that is missing.

* `Snapshot.independent_steps_commute`: two independent steps can be exchanged.
* `Program.RaceFree`: what is asked of a program.
* `Program.RaceFree.diamond`: two turns can be exchanged.
* `Program.RaceFree.exists_rest`: a valid schedule can be continued to where another one ends.
* `Problem.race_free_schedule_independent`: what this says about complete states and the verdict.
-/

namespace Flowchart

/-- A thread that prints the input up to the first zero, beside one that sets two variables of its
own in a loop. The latter two are not declared. -/
def Demo.echo : Problem where
  program := (Demo.Outline.program
    { name := "echo"
      declared := ["x"]
      threads := [
        (⟨1⟩, [⟨⟨0⟩, .start ⟨1⟩⟩, ⟨⟨1⟩, .input "x" ⟨2⟩⟩, ⟨⟨2⟩, .branch ⟨"x", .equal, 0⟩ ⟨4⟩ ⟨3⟩⟩,
          ⟨⟨3⟩, .print "x" ⟨1⟩⟩, ⟨⟨4⟩, .finish⟩]),
        (⟨2⟩, [⟨⟨0⟩, .start ⟨1⟩⟩, ⟨⟨1⟩, .assign "y" (.literal 1) ⟨2⟩⟩,
          ⟨⟨2⟩, .branch ⟨"z", .less, 1⟩ ⟨3⟩ ⟨4⟩⟩, ⟨⟨3⟩, .assign "z" (.copy "y") ⟨2⟩⟩,
          ⟨⟨4⟩, .finish⟩])] }).toOption.get (by decide +kernel)
  input := [5, 0]
  expected := []

/-- The state of that problem in which the first thread is about to read and the second one to
write. -/
def Demo.halfway : State :=
  { Demo.echo.initial with
    counters := (Demo.echo.initial.counters.insert ⟨1⟩ (some ⟨1⟩)).insert ⟨2⟩ (some ⟨1⟩)
    depth := 2 }

/-! ### The exchange of two steps -/

namespace Snapshot

/-- **Independent steps commute.** If two threads can run in the snapshot of a state and their
current blocks are independent, each can still run after the step of the other, and the snapshot
that is reached is the same in either order. -/
theorem independent_steps_commute (p : Program) (s : State) (a b : ThreadId) (x y : Block)
    (hroom : s.depth + 2 ≤ maxDepth) (hab : a ≠ b) (ha : a ∈ s.snapshot.runnable p)
    (hb : b ∈ s.snapshot.runnable p) (hx : p.current s.snapshot.restore a = .ok (some x))
    (hy : p.current s.snapshot.restore b = .ok (some y))
    (hindependent : x.action.Independent y.action) :
    ∃ ga gb g, s.snapshot.step p a = .ok ga ∧ s.snapshot.step p b = .ok gb ∧
      b ∈ ga.runnable p ∧ a ∈ gb.runnable p ∧ ga.step p b = .ok g ∧ gb.step p a = .ok g := by
  rw [State.restore_snapshot] at hx hy
  rw [State.runnable_snapshot] at ha hb
  have hready := State.ready_of_mem_runnable ha hx
  have hready' := State.ready_of_mem_runnable hb hy
  have hthen := State.ready_fire hab hready' hindependent
  have hthen' := State.ready_fire hab.symm hready hindependent.symm
  have hfirst : s.depth < maxDepth := by omega
  have hsecond : s.depth + 1 < maxDepth := by omega
  refine ⟨(s.fire a x).snapshot, (s.fire b y).snapshot, ((s.fire a x).fire b y).snapshot,
    step_snapshot hx hfirst, step_snapshot hy hfirst, ?_, ?_, ?_, ?_⟩
  · exact State.mem_runnable_iff.2 ⟨y, hthen⟩
  · exact State.mem_runnable_iff.2 ⟨x, hthen'⟩
  · exact step_snapshot (State.current_of_mem_ready hthen) hsecond
  · rw [s.fire_comm hab hindependent]
    exact step_snapshot (State.current_of_mem_ready hthen') hsecond

theorem halfway_steps_commute :
    (Action.input "x" ⟨2⟩).Independent (Action.assign "y" (.literal 1) ⟨2⟩) ∧
    ∃ ga gb g, Demo.halfway.snapshot.step Demo.echo.program ⟨1⟩ = .ok ga ∧
      Demo.halfway.snapshot.step Demo.echo.program ⟨2⟩ = .ok gb ∧
      ⟨2⟩ ∈ ga.runnable Demo.echo.program ∧ ⟨1⟩ ∈ gb.runnable Demo.echo.program ∧
      ga.step Demo.echo.program ⟨2⟩ = .ok g ∧ gb.step Demo.echo.program ⟨1⟩ = .ok g := by
  have hindependent : (Action.input "x" ⟨2⟩).Independent (Action.assign "y" (.literal 1) ⟨2⟩) := by
    refine ⟨?_, ?_, by decide, by decide⟩
    · simp [Action.written?, Action.names, Operand.names]
    · simp [Action.written?, Action.names]
  exact ⟨hindependent, independent_steps_commute Demo.echo.program Demo.halfway ⟨1⟩ ⟨2⟩
    ⟨⟨1⟩, .input "x" ⟨2⟩⟩ ⟨⟨1⟩, .assign "y" (.literal 1) ⟨2⟩⟩ (by decide +kernel)
    (by decide) (by decide +kernel) (by decide +kernel) (by decide +kernel) (by decide +kernel)
    hindependent⟩

end Snapshot

namespace Program

/-- Blocks of the given kind are found in one thread at most. -/
def Confined (p : Program) (kind : Action → Bool) : Prop :=
  ∀ t ∈ p.threadList, ∀ u ∈ p.threadList,
    (∃ b ∈ t.blocks, kind b.action = true) → (∃ c ∈ u.blocks, kind c.action = true) → t.id = u.id

instance (p : Program) (kind : Action → Bool) : Decidable (p.Confined kind) :=
  inferInstanceAs (Decidable (∀ t ∈ p.threadList, ∀ u ∈ p.threadList, _ → _ → t.id = u.id))

/-- No thread writes a variable that another one mentions, one thread at most has PRINT blocks, and
one thread at most has INPUT blocks. -/
structure RaceFree (p : Program) : Prop where
  write : ∀ t ∈ p.threadList, ∀ u ∈ p.threadList, t.id ≠ u.id →
    ∀ b ∈ t.blocks, ∀ c ∈ u.blocks, ∀ name ∈ b.action.written?, name ∉ c.action.names
  print : p.Confined Action.isPrint
  input : p.Confined Action.isInput

instance (p : Program) : Decidable p.RaceFree :=
  decidable_of_iff (_ ∧ _ ∧ _)
    ⟨fun h => ⟨h.1, h.2.1, h.2.2⟩, fun h => ⟨h.write, h.print, h.input⟩⟩

namespace RaceFree

variable {p : Program} {s m n c : State} {t u : ThreadId} {i j : BlockId} {b d : Block}
  {v w : List ThreadId}

theorem independent (h : p.RaceFree) (htu : t ≠ u) (hb : p.block? t i = some b)
    (hd : p.block? u j = some d) : b.action.Independent d.action := by
  obtain ⟨x, hx, rfl, hb, -⟩ := block?_eq_some_iff.1 hb
  obtain ⟨y, hy, rfl, hd, -⟩ := block?_eq_some_iff.1 hd
  refine ⟨?_, ?_, ?_, ?_⟩
  · exact fun name hname => h.write x hx y hy htu b hb d hd name hname
  · exact fun name hname => h.write y hy x hx htu.symm d hd b hb name hname
  · intro hprint
    by_contra hother
    exact htu (h.print x hx y hy ⟨b, hb, hprint⟩ ⟨d, hd, by simpa using hother⟩)
  · intro hin
    by_contra hother
    exact htu (h.input x hx y hy ⟨b, hb, hin⟩ ⟨d, hd, by simpa using hother⟩)

/-- Turns of two threads that are possible in a state can be taken in either order. -/
theorem diamond (h : p.RaceFree) (htu : t ≠ u) (hm : (t, m) ∈ s.successors p)
    (hn : (u, n) ∈ s.successors p) : ∃ k, (u, k) ∈ m.successors p ∧ (t, k) ∈ n.successors p := by
  obtain ⟨b, hb, rfl⟩ := State.exists_ready_of_mem_successors hm
  obtain ⟨d, hd, rfl⟩ := State.exists_ready_of_mem_successors hn
  obtain ⟨i, -, hblock⟩ := current_eq_ok_some_iff.1 (State.current_of_mem_ready hb)
  obtain ⟨j, -, hblock'⟩ := current_eq_ok_some_iff.1 (State.current_of_mem_ready hd)
  have hindependent := h.independent htu hblock hblock'
  refine ⟨(s.fire t b).fire u d, ?_, ?_⟩
  · exact State.mem_successors_of_ready (State.ready_fire htu hd hindependent)
  · rw [s.fire_comm htu hindependent]
    exact State.mem_successors_of_ready (State.ready_fire htu.symm hb hindependent.symm)

/-- If a schedule ends where no thread can run, then after any one turn another schedule, with one
turn less, ends there too. -/
theorem exists_rest_of_turn (h : p.RaceFree) (hc : c.runnable p = []) (hw : p.Leads s w c)
    (ht : (t, m) ∈ s.successors p) : ∃ w', p.Leads m w' c ∧ w'.length + 1 = w.length := by
  induction w generalizing s t m with
  | nil =>
    obtain rfl : s = c := by simpa [leads_iff_replay?] using hw
    have hrun := (State.mem_successors_iff.1 ht).1
    simp [hc] at hrun
  | cons u w ih =>
    obtain ⟨n, hu, hrest⟩ := leads_cons_iff.1 hw
    by_cases htu : t = u
    · -- The turn is the first one of the schedule.
      subst htu
      rw [← State.advance?_eq_some_iff] at ht hu
      obtain rfl : m = n := Option.some.inj (ht.symm.trans hu)
      exact ⟨w, hrest, rfl⟩
    · obtain ⟨k, hk, hk'⟩ := h.diamond htu ht hu
      obtain ⟨w', hw', hlen⟩ := ih hrest hk'
      exact ⟨u :: w', leads_cons_iff.2 ⟨k, hk, hw'⟩, by rw [List.length_cons, hlen]; rfl⟩

/-- If a schedule ends where no thread can run, then every valid schedule can be continued to that
state, and is as long as the first one then. -/
theorem exists_rest (h : p.RaceFree) (hc : c.runnable p = []) (hw : p.Leads s w c)
    (hv : p.Leads s v m) : ∃ w', p.Leads m w' c ∧ v.length + w'.length = w.length := by
  induction hv with
  | nil => exact ⟨w, hw, by simp⟩
  | @snoc v m t b _ hrun hb ih =>
    obtain ⟨w', hw', hlen⟩ := ih
    have hturn : (t, m.fire t b) ∈ m.successors p :=
      State.mem_successors_iff.2 ⟨hrun, b, hb, rfl⟩
    obtain ⟨w'', hw'', hlen'⟩ := h.exists_rest_of_turn hc hw' hturn
    refine ⟨w'', hw'', ?_⟩
    rw [List.length_append, List.length_singleton]
    omega

/-- There is one state at most where no thread can run. -/
theorem eq_of_stuck (h : p.RaceFree) (hc : c.runnable p = []) (hw : p.Leads s w c)
    (hm : m.runnable p = []) (hv : p.Leads s v m) : m = c := by
  obtain ⟨w', hw', -⟩ := h.exists_rest hc hw hv
  cases w' with
  | nil => simpa [leads_iff_replay?] using hw'
  | cons t w' =>
    obtain ⟨n, hn, -⟩ := leads_cons_iff.1 hw'
    have hrun := (State.mem_successors_iff.1 hn).1
    simp [hm] at hrun

end RaceFree

end Program

namespace Problem

/-- **Without races the schedule does not matter.** Any two complete states that valid schedules
lead to are the same, and the problem is verified if the output of such a state is expected. -/
theorem race_free_schedule_independent (q : Problem) (h : q.program.RaceFree) :
    (∀ w s w' s', q.Leads w s → s.isComplete = true → q.Leads w' s' → s'.isComplete = true →
      s = s') ∧
    (∀ w s, q.Leads w s → s.isComplete = true → { q with expected := s.output }.Verified) := by
  refine ⟨?_, ?_⟩
  · intro w s w' s' hw hs hw' hs'
    exact h.eq_of_stuck (s'.runnable_eq_nil_of_isComplete _ hs') hw'
      (s.runnable_eq_nil_of_isComplete _ hs) hw
  · intro w s hw hs
    have hstuck := s.runnable_eq_nil_of_isComplete q.program hs
    refine verified_iff.2 ⟨?_, w.length, ?_⟩
    · rintro v m hv (hdiverges | ⟨hm, hne⟩)
      · obtain ⟨w', hw', -⟩ := h.exists_rest hstuck hw hv
        exact hdiverges hw'.output_prefix
      · have heq := h.eq_of_stuck hstuck hw (m.runnable_eq_nil_of_isComplete _ hm) hv
        exact hne (congrArg State.output heq)
    · intro v m hv
      obtain ⟨w', -, hlen⟩ := h.exists_rest hstuck hw hv
      omega

theorem echo_verified :
    Demo.echo.program.RaceFree ∧ { Demo.echo with expected := [5] }.Verified := by
  have hfree : Demo.echo.program.RaceFree := by decide +kernel
  have hafter : (Demo.echo.after? (List.replicate 7 ⟨1⟩ ++ List.replicate 6 ⟨2⟩)).map (fun s =>
      (s.isComplete, s.output)) = some (true, [5]) := by
    decide +kernel
  obtain ⟨s, hs, hstate⟩ := Option.map_eq_some_iff.1 hafter
  obtain ⟨hcomplete, hout⟩ := Prod.mk.inj hstate
  refine ⟨hfree, ?_⟩
  rw [← hout]
  exact (race_free_schedule_independent Demo.echo hfree).2 _ s (Program.leads_iff_replay?.2 hs)
    hcomplete

end Problem

end Flowchart
