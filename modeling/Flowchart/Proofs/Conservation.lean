import Flowchart.Proofs.Safety

/-!
# What is conserved along a schedule

Several threads take numbers from one input stream and append values to one output stream, in
whatever order the schedule gives. What was taken and what is left always make up the input, and
what was printed is never taken back. To say so, the steps of a schedule are listed as firings, each
with the block that runs and the state in which it runs.

## Main definitions

* `Firing`, `Program.firings`: the steps of a schedule.
* `Firing.Stores`, `Firing.Prints`: what an INPUT and a PRINT do to the number or value that is
  theirs.

## Main results

* `Program.Leads.input_eq_drop`, `Program.Leads.stores`: the input along a schedule.
* `Program.Leads.prints`: the output along a schedule.
* `Problem.conserved_along_schedule`: all of it, for the schedules of a problem.
-/

namespace Flowchart

/-- Two threads that each read a number from one stream and print it. -/
def Demo.readers : Problem where
  program := (Demo.Outline.program
    { name := "readers"
      declared := ["x", "y"]
      threads := [
        (⟨1⟩, [⟨⟨0⟩, .start ⟨1⟩⟩, ⟨⟨1⟩, .input "x" ⟨2⟩⟩, ⟨⟨2⟩, .print "x" ⟨3⟩⟩, ⟨⟨3⟩, .finish⟩]),
        (⟨2⟩, [⟨⟨0⟩, .start ⟨1⟩⟩, ⟨⟨1⟩, .input "y" ⟨2⟩⟩, ⟨⟨2⟩, .print "y" ⟨3⟩⟩,
          ⟨⟨3⟩, .finish⟩])] }).toOption.get (by decide +kernel)
  input := [-1, 4294967300, 7]
  expected := []

/-- An input number is stored as its residue, negative numbers included. -/
theorem Value.toNat_ofInput (i : Int64) :
    ((Value.ofInput i).toNat : Int) = i.toInt % UInt32.size := by
  have hint : i.toInt = i.toBitVec.toInt := rfl
  have hnat : (Value.ofInput i).toNat = i.toBitVec.toNat % UInt32.size :=
    UInt64.toNat_toUInt32 i.toUInt64
  rw [hnat, hint, BitVec.toInt_eq_toNat_cond, UInt32.size]
  have hlt := i.toBitVec.isLt
  split
  · omega
  · omega

/-- One step of a schedule: a thread, the block it runs and the state in which it does so. -/
structure Firing where
  thread : ThreadId
  block : Block
  before : State

namespace Firing

/-- The state that the step leads to. -/
def after (f : Firing) : State :=
  f.before.fire f.thread f.block

def isInput (f : Firing) : Bool :=
  f.block.action.isInput

def isPrint (f : Firing) : Bool :=
  f.block.action.isPrint

/-- The step is an INPUT, after which its variable holds the residue of the number. -/
def Stores (f : Firing) (i : Int64) : Prop :=
  ∃ var next, f.block.action = .input var next ∧
    ((f.after.get var).toNat : Int) = i.toInt % UInt32.size

/-- The step is a PRINT, before which its variable holds the value. -/
def Prints (f : Firing) (v : Value) : Prop :=
  ∃ var next, f.block.action = .print var next ∧ f.before.get var = v

theorem stores_of_isInput {f : Firing} {i : Int64} {rest : List Int64} (hf : f.isInput = true)
    (hin : f.before.input = i :: rest) : f.Stores i := by
  rw [isInput] at hf
  cases haction : f.block.action with
  | input var next =>
    refine ⟨var, next, haction, ?_⟩
    have hget : f.after.get var = Value.ofInput i := by
      simp [after, State.get, State.store_fire, haction, Action.change?, hin]
    rw [hget, Value.toNat_ofInput]
  | _ => simp [haction, Action.isInput] at hf

theorem prints_of_isPrint {f : Firing} (hf : f.isPrint = true) :
    ∃ v, f.block.action.printed f.before = [v] ∧ f.Prints v := by
  rw [isPrint] at hf
  cases haction : f.block.action with
  | print var next => exact ⟨f.before.get var, rfl, var, next, haction, rfl⟩
  | _ => simp [haction, Action.isPrint] at hf

end Firing

/-- The steps of a schedule, as far as there are blocks to run. -/
def Program.firings (p : Program) (s : State) : List ThreadId → List Firing
  | [] => []
  | t :: w =>
    match p.current s t with
    | .ok (some b) => ⟨t, b, s⟩ :: p.firings (s.fire t b) w
    | _ => []

namespace Program

variable {p : Program} {s m : State} {w : List ThreadId} {t : ThreadId} {i : Nat} {f : Firing}

/-- A valid schedule begins with a firing and goes on from where that leads. -/
theorem exists_firing_of_leads_cons (h : p.Leads s (t :: w) m) :
    ∃ f : Firing, f.thread = t ∧ f.before = s ∧ (t, f.block) ∈ s.ready p ∧
      p.firings s (t :: w) = f :: p.firings f.after w ∧ p.Leads f.after w m := by
  obtain ⟨n, hn, hrest⟩ := leads_cons_iff.1 h
  obtain ⟨b, hb, rfl⟩ := State.exists_ready_of_mem_successors hn
  refine ⟨⟨t, b, s⟩, rfl, rfl, hb, ?_, hrest⟩
  rw [firings, State.current_of_mem_ready hb]
  rfl

namespace Leads

theorem map_thread_firings (h : p.Leads s w m) : (p.firings s w).map Firing.thread = w := by
  induction w generalizing s with
  | nil => rfl
  | cons t w ih =>
    obtain ⟨f, ht, -, -, hf, hrest⟩ := exists_firing_of_leads_cons h
    rw [hf, List.map_cons, ht, ih hrest]

/-- Each firing is the turn at its place in the schedule. -/
theorem of_getElem?_firings (h : p.Leads s w m) (hf : (p.firings s w)[i]? = some f) :
    p.Leads s (w.take i) f.before ∧ (f.thread, f.block) ∈ f.before.ready p ∧
      p.Leads s (w.take (i + 1)) f.after := by
  induction w generalizing s i with
  | nil => simp [firings] at hf
  | cons t w ih =>
    obtain ⟨g, rfl, hbefore, hready, hfirings, hrest⟩ := exists_firing_of_leads_cons h
    have hturn : (g.thread, g.after) ∈ s.successors p := by
      rw [Firing.after, hbefore]
      exact State.mem_successors_of_ready hready
    rw [hfirings] at hf
    cases i with
    | zero =>
      obtain rfl : g = f := by simpa using hf
      subst hbefore
      exact ⟨.nil, hready, leads_cons_iff.2 ⟨g.after, hturn, .nil⟩⟩
    | succ i =>
      obtain ⟨hleads, hready', hnext⟩ := ih hrest (by simpa using hf)
      exact ⟨leads_cons_iff.2 ⟨g.after, hturn, hleads⟩, hready',
        leads_cons_iff.2 ⟨g.after, hturn, hnext⟩⟩

/-- The input that is left lacks one number for each INPUT. -/
theorem input_eq_drop (h : p.Leads s w m) :
    m.input = s.input.drop ((p.firings s w).filter Firing.isInput).length := by
  induction w generalizing s with
  | nil =>
    obtain rfl : s = m := by simpa [leads_iff_replay?] using h
    rfl
  | cons t w ih =>
    obtain ⟨f, -, rfl, -, hf, hrest⟩ := exists_firing_of_leads_cons h
    have hstep := State.input_fire f.before f.thread f.block
    rw [← Firing.after, ← Firing.isInput] at hstep
    rw [ih hrest, hstep, hf]
    by_cases hin : f.isInput = true
    · rw [if_pos hin, List.filter_cons_of_pos hin, List.length_cons, List.drop_tail]
    · rw [if_neg hin, List.filter_cons_of_neg hin]

/-- The numbers taken from the input are stored in order, one by each INPUT. -/
theorem stores (h : p.Leads s w m) :
    List.Forall₂ Firing.Stores ((p.firings s w).filter Firing.isInput)
      (s.input.take ((p.firings s w).filter Firing.isInput).length) := by
  induction w generalizing s with
  | nil => simp [firings]
  | cons t w ih =>
    obtain ⟨f, rfl, rfl, hready, hf, hrest⟩ := exists_firing_of_leads_cons h
    have hstep := State.input_fire f.before f.thread f.block
    rw [← Firing.after, ← Firing.isInput] at hstep
    have hlater := ih hrest
    rw [hf]
    by_cases hin : f.isInput = true
    · -- The thread was able to run, so there was a number for it.
      obtain ⟨c, -, hc⟩ := State.mem_ready_iff.1 hready
      obtain ⟨-, -, -, hwait⟩ := ready?_eq_some_iff.1 hc
      have hne : f.before.input ≠ [] := hwait.resolve_left (by simpa [Firing.isInput] using hin)
      obtain ⟨i, rest, hcons⟩ := List.exists_cons_of_ne_nil hne
      rw [if_pos hin, hcons, List.tail_cons] at hstep
      rw [List.filter_cons_of_pos hin, List.length_cons, hcons, List.take_succ_cons]
      exact .cons (Firing.stores_of_isInput hin hcons) (hstep ▸ hlater)
    · rw [if_neg hin] at hstep
      rw [List.filter_cons_of_neg hin]
      exact hstep ▸ hlater

/-- What was printed before is followed by one value for each PRINT, in order. -/
theorem prints (h : p.Leads s w m) :
    ∃ values, m.output = s.output ++ values ∧
      List.Forall₂ Firing.Prints ((p.firings s w).filter Firing.isPrint) values := by
  induction w generalizing s with
  | nil =>
    obtain rfl : s = m := by simpa [leads_iff_replay?] using h
    exact ⟨[], by simp, .nil⟩
  | cons t w ih =>
    obtain ⟨f, -, rfl, -, hf, hrest⟩ := exists_firing_of_leads_cons h
    obtain ⟨values, hvalues, hall⟩ := ih hrest
    have hstep := State.output_fire f.before f.thread f.block
    rw [← Firing.after] at hstep
    rw [hvalues, hstep, hf, List.append_assoc]
    by_cases hprint : f.isPrint = true
    · obtain ⟨v, hv, hprints⟩ := Firing.prints_of_isPrint hprint
      rw [hv, List.filter_cons_of_pos hprint]
      exact ⟨_, rfl, .cons hprints hall⟩
    · have hnone := Action.printed_eq_nil (s := f.before) (by simpa [Firing.isPrint] using hprint)
      rw [hnone, List.filter_cons_of_neg hprint]
      exact ⟨values, rfl, hall⟩

/-- The counters are those of the first state. -/
theorem mem_counters_iff (h : p.Leads s w m) : t ∈ m.counters ↔ t ∈ s.counters := by
  induction h with
  | nil => rfl
  | snoc _ _ hb ih => rw [State.mem_counters_fire hb, ih]

/-- A schedule that goes on from another one passes through its state. -/
theorem of_append {v : List ThreadId} {n : State} (hv : p.Leads s v n)
    (h : p.Leads s (v ++ w) m) : p.Leads n w m := by
  rw [leads_iff_replay?] at hv h ⊢
  rw [State.replay?_append, hv] at h
  exact h

end Leads

end Program

namespace Problem

/-- **What a schedule takes and prints is conserved.** The turns of a valid schedule are steps of the
interpreter. In the state at the end the depth is the number of turns, every thread has a counter,
the input has lost one number for each INPUT, and the output has one value for each PRINT. So a
state is reached by schedules of one length only and does not recur along a schedule. -/
theorem conserved_along_schedule (q : Problem) (w : List ThreadId) (s : State) (h : q.Leads w s) :
    ((q.program.firings q.initial w).map Firing.thread = w ∧
      ∀ i f, (q.program.firings q.initial w)[i]? = some f →
        q.Leads (w.take i) f.before ∧ f.thread ∈ f.before.runnable q.program ∧
        (i < maxDepth → q.program.step f.before.snapshot.restore f.thread = .ok f.after) ∧
        q.Leads (w.take (i + 1)) f.after) ∧
    s.depth = w.length ∧
    (s.snapshot.counters.toList.map Prod.fst = q.program.threadIds ∧
      q.program.threadIds.Pairwise (· < ·)) ∧
    (s.input = q.input.drop ((q.program.firings q.initial w).filter Firing.isInput).length ∧
      List.Forall₂ Firing.Stores ((q.program.firings q.initial w).filter Firing.isInput)
        (q.input.take ((q.program.firings q.initial w).filter Firing.isInput).length)) ∧
    (List.Forall₂ Firing.Prints ((q.program.firings q.initial w).filter Firing.isPrint) s.output ∧
      ∀ v x, v <+: w → q.Leads v x → x.output <+: s.output) ∧
    (∀ v, q.Leads v s → v.length = w.length) ∧
    (∀ v v' x, v <+: w → v' <+: w → q.Leads v x → q.Leads v' x → v = v') := by
  refine ⟨⟨h.map_thread_firings, ?_⟩, h.depth_eq_length, ⟨?_, ?_⟩, ⟨h.input_eq_drop, h.stores⟩,
    ⟨?_, ?_⟩, ?_, ?_⟩
  · intro i f hf
    obtain ⟨hbefore, hready, hafter⟩ := h.of_getElem?_firings hf
    refine ⟨hbefore, State.mem_runnable_iff.2 ⟨_, hready⟩, ?_, hafter⟩
    intro hi
    have hdepth : f.before.depth ≤ i := by
      rw [Leads.depth_eq_length hbefore]
      exact List.length_take_le i w
    rw [State.restore_snapshot]
    exact Program.step_eq_ok (State.current_of_mem_ready hready) (by omega)
  · have hkeys : s.snapshot.counters.toList.map Prod.fst = s.counters.keys :=
      Std.ExtTreeMap.map_fst_toList_eq_keys
    rw [hkeys]
    apply State.keys_counters_eq
    intro t
    rw [Program.Leads.mem_counters_iff h, mem_counters_initial]
  · exact Std.ExtTreeMap.ordered_keys.imp ThreadId.compare_eq_lt_iff.1
  · obtain ⟨values, hvalues, hall⟩ := Program.Leads.prints h
    rw [hvalues]
    exact hall
  · rintro v x ⟨w', rfl⟩ hv
    exact Program.Leads.output_prefix (Program.Leads.of_append hv h)
  · intro v hv
    rw [← hv.depth_eq_length, ← h.depth_eq_length]
  · intro v v' x hvw hvw' hv hv'
    have hlen : v.length = v'.length := by rw [← hv.depth_eq_length, ← hv'.depth_eq_length]
    exact (List.prefix_of_prefix_length_le hvw hvw' hlen.le).eq_of_length hlen

/-- The second reader is faster and takes the first number, which is negative. The first reader
takes the second one, which is too large. -/
theorem readers_conserved :
    ∃ s, Demo.readers.Leads [⟨1⟩, ⟨2⟩, ⟨2⟩, ⟨1⟩, ⟨2⟩, ⟨1⟩] s ∧ s.depth = 6 ∧ s.input = [7] ∧
      List.Forall₂ Firing.Stores
        ((Demo.readers.program.firings Demo.readers.initial
          [⟨1⟩, ⟨2⟩, ⟨2⟩, ⟨1⟩, ⟨2⟩, ⟨1⟩]).filter Firing.isInput) [-1, 4294967300] ∧
      List.Forall₂ Firing.Prints
        ((Demo.readers.program.firings Demo.readers.initial
          [⟨1⟩, ⟨2⟩, ⟨2⟩, ⟨1⟩, ⟨2⟩, ⟨1⟩]).filter Firing.isPrint) [4294967295, 4] := by
  have hafter : (Demo.readers.after? [⟨1⟩, ⟨2⟩, ⟨2⟩, ⟨1⟩, ⟨2⟩, ⟨1⟩]).map (·.output) =
      some [4294967295, 4] := by
    decide +kernel
  have hreads : ((Demo.readers.program.firings Demo.readers.initial
      [⟨1⟩, ⟨2⟩, ⟨2⟩, ⟨1⟩, ⟨2⟩, ⟨1⟩]).filter Firing.isInput).length = 2 := by
    decide +kernel
  obtain ⟨s, hs, hout⟩ := Option.map_eq_some_iff.1 hafter
  have hleads := Program.leads_iff_replay?.2 hs
  obtain ⟨-, hdepth, -, ⟨hinput, hstores⟩, ⟨hprints, -⟩, -⟩ :=
    conserved_along_schedule Demo.readers _ s hleads
  rw [hreads] at hinput hstores
  rw [hout] at hprints
  exact ⟨s, hleads, hdepth, hinput, hstores, hprints⟩

end Problem

end Flowchart
