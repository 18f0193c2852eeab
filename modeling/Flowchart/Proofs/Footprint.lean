import Flowchart.Proofs.Step
import Flowchart.Proofs.Verdict

/-!
# The footprint of a block

A block says which variables it mentions and which blocks it may lead to. Programs are examined by
these two lists, while a step goes by the action itself. The lists are right: a step writes no
variable that its block does not list, reads none, and leads nowhere else.

## Main definitions

* `Block.Frame`: what the step of a thread may change.
* `Block.Agree`: two states that a block cannot tell apart.

## Main results

* `State.frame_fire`: a step changes nothing outside the footprint of its block.
* `State.agree_fire`: a step depends on nothing outside the footprint of its block.
* `Program.footprint_exact`: both, for the steps of the interpreter.
-/

namespace Flowchart

/-- The second of two racing writers is about to copy `x`. -/
def Demo.halfCopied : State :=
  { Demo.Scenario.race.posed.initial with
    counters := Demo.Scenario.race.posed.initial.counters.insert ⟨2⟩ (some ⟨1⟩)
    store := Demo.Scenario.race.posed.initial.store.insert "x" 1 }

/-- A state with the same copy to make, while the other variables, the output and the other thread
are different. -/
def Demo.halfCopiedElsewhere : State :=
  { Demo.halfCopied with
    counters := Demo.halfCopied.counters.insert ⟨1⟩ none
    store := (Demo.halfCopied.store.erase "t2").insert "t1" 7
    output := [3]
    depth := 40 }

namespace Block

/-- What a step of thread `t` at block `b` may change. The counter of the thread ends with an END
block, stays at an INPUT block that has no input, and goes on to a target of the block otherwise. -/
structure Frame (b : Block) (t : ThreadId) (s s' : State) : Prop where
  counters : ∀ u, u ≠ t → s'.counters[u]? = s.counters[u]?
  store : ∀ name, name ∉ b.action.names → s'.store[name]? = s.store[name]?
  output : ∃ printed, s'.output = s.output ++ printed ∧ printed.length ≤ 1
  input : s'.input = s.input ∨ ∃ i, s.input = i :: s'.input
  ends : s'.counters[t]? = some none ↔ b.action.isFinish = true
  stays : b.action.isInput = true → s.input = [] → s'.counters[t]? = s.counters[t]?
  goes : b.action.isFinish = false → ¬ (b.action.isInput = true ∧ s.input = []) →
    ∃ i ∈ b.action.targets, s'.counters[t]? = some (some i)

/-- The thread is at the same place in both states, the input is the same, and so are the values of
the variables that the block mentions. -/
structure Agree (b : Block) (t : ThreadId) (s s' : State) : Prop where
  counter : s.counters[t]? = s'.counters[t]?
  input : s.input = s'.input
  get : ∀ name ∈ b.action.names, s.get name = s'.get name

end Block

namespace Action

variable {a : Action} {s : State} {here : BlockId}

theorem length_printed_le (a : Action) (s : State) : (a.printed s).length ≤ 1 := by
  cases a with
  | print var next => exact le_rfl
  | _ => exact Nat.zero_le 1

/-- Only an END block ends its thread. -/
theorem next?_eq_none_iff : a.next? s here = none ↔ a.isFinish = true := by
  cases a with
  | finish => exact ⟨fun _ => rfl, fun _ => rfl⟩
  | _ => simp [next?, isFinish]

theorem next?_of_starved (hin : a.isInput = true) (hempty : s.input = []) :
    a.next? s here = some here := by
  cases a with
  | input var next => simp [next?, hempty]
  | _ => cases hin

/-- A block that neither ends its thread nor waits leads to one of its targets. -/
theorem exists_target_of_next? (here : BlockId) (hgoes : a.isFinish = false)
    (hfed : ¬ (a.isInput = true ∧ s.input = [])) : ∃ i ∈ a.targets, a.next? s here = some i := by
  cases a with
  | finish => cases hgoes
  | input var next =>
    have hinput : s.input ≠ [] := fun hempty => hfed ⟨rfl, hempty⟩
    exact ⟨next, List.mem_singleton_self next, by simp [next?, hinput]⟩
  | branch condition onTrue onFalse =>
    by_cases hholds : condition.holds (s.get condition.var) = true
    · exact ⟨onTrue, List.mem_cons_self, by simp [next?, hholds]⟩
    · exact ⟨onFalse, List.mem_cons_of_mem _ List.mem_cons_self, by simp [next?, hholds]⟩
  | start next => exact ⟨next, List.mem_singleton_self next, rfl⟩
  | assign target operand next => exact ⟨next, List.mem_singleton_self next, rfl⟩
  | print var next => exact ⟨next, List.mem_singleton_self next, rfl⟩

end Action

namespace State

variable {s s₁ s₂ : State} {t : ThreadId} {b : Block} {name : String}

theorem getElem?_counters_fire_self (s : State) (t : ThreadId) (b : Block) :
    (s.fire t b).counters[t]? = some (b.action.next? s b.id) := by
  rw [getElem?_counters_fire, if_pos rfl]

theorem frame_fire (h : s.counters[t]? = some (some b.id)) : b.Frame t s (s.fire t b) where
  counters u hu := by rw [getElem?_counters_fire, if_neg hu.symm]
  store name hname := getElem?_store_fire_of_ne s t fun hwritten =>
    hname (Action.mem_names_of_written? hwritten)
  output := ⟨b.action.printed s, output_fire s t b, b.action.length_printed_le s⟩
  input := by
    rw [input_fire]
    by_cases hin : b.action.isInput = true
    · rw [if_pos hin]
      cases s.input with
      | nil => exact .inl rfl
      | cons i rest => exact .inr ⟨i, rfl⟩
    · exact .inl (if_neg hin)
  ends := by rw [getElem?_counters_fire_self, Option.some.injEq, Action.next?_eq_none_iff]
  stays hin hempty := by rw [getElem?_counters_fire_self, Action.next?_of_starved hin hempty, h]
  goes hgoes hfed := by
    obtain ⟨i, hi, hnext⟩ := Action.exists_target_of_next? b.id hgoes hfed
    exact ⟨i, hi, by rw [getElem?_counters_fire_self, hnext]⟩

theorem get_fire (s : State) (t : ThreadId) (b : Block) (name : String) :
    (s.fire t b).get name =
      (b.action.change? s).elim (s.get name) fun c => if c.1 = name then c.2 else s.get name := by
  rw [get, store_fire]
  cases b.action.change? s with
  | none => rfl
  | some change => simp [get, Std.ExtTreeMap.getD_insert]

/-- A block that cannot tell two states apart does the same in both, and cannot tell the states
after it apart either. -/
theorem agree_fire (h : b.Agree t s₁ s₂) :
    b.Agree t (s₁.fire t b) (s₂.fire t b) ∧ b.action.printed s₁ = b.action.printed s₂ := by
  have halike : b.action.Alike s₁ s₂ := ⟨h.get, fun _ => h.input⟩
  refine ⟨⟨?_, ?_, ?_⟩, halike.printed_eq⟩
  · rw [getElem?_counters_fire_self, getElem?_counters_fire_self, halike.next?_eq]
  · rw [input_fire, input_fire, h.input]
  · intro name hname
    rw [get_fire, get_fire, halike.change?_eq, h.get name hname]

end State

namespace Program

variable {p : Program} {s s' : State} {t : ThreadId} {b : Block}

/-- If a thread has a current block, its step is that of the block, as long as there is room to
count it. -/
theorem step_eq_ok_iff (hb : p.current s t = .ok (some b)) :
    p.step s t = .ok s' ↔ s.depth < maxDepth ∧ s' = s.fire t b := by
  by_cases hroom : s.depth < maxDepth
  · rw [step_eq_ok hb hroom, Except.ok.injEq, eq_comm, and_iff_right hroom]
  · simp [step, hb, hroom]

/-- **The footprint of a block is exact.** A step leaves the counters of other threads alone, and the
variables that its block does not mention. It prints one value and reads one number at most. The
thread ends at an END block, stays at an INPUT block that finds no input, and otherwise goes on to a
target of the block. What a step does depends on the counter of its thread, the input and the
variables that the block mentions. -/
theorem footprint_exact (p : Program) (t : ThreadId) (i : BlockId) (b : Block)
    (hblock : p.block? t i = some b) :
    (∀ s, s.counters[t]? = some (some i) →
      ((∃ s', p.step s t = .ok s') ↔ s.depth < maxDepth) ∧
      ∀ s', p.step s t = .ok s' → b.Frame t s s') ∧
    ∀ s₁ s₂ s₁' s₂', s₁.counters[t]? = some (some i) → b.Agree t s₁ s₂ →
      p.step s₁ t = .ok s₁' → p.step s₂ t = .ok s₂' →
      b.Agree t s₁' s₂' ∧
        ∃ printed, s₁'.output = s₁.output ++ printed ∧ s₂'.output = s₂.output ++ printed := by
  obtain ⟨-, -, -, -, rfl⟩ := block?_eq_some_iff.1 hblock
  have hcurrent (s : State) (hs : s.counters[t]? = some (some b.id)) :
      p.current s t = .ok (some b) :=
    current_eq_ok_some_iff.2 ⟨b.id, hs, hblock⟩
  refine ⟨?_, ?_⟩
  · intro s hs
    simp only [step_eq_ok_iff (hcurrent s hs)]
    refine ⟨by simp, ?_⟩
    rintro s' ⟨-, rfl⟩
    exact State.frame_fire hs
  · intro s₁ s₂ s₁' s₂' hs₁ hagree hstep₁ hstep₂
    obtain ⟨-, rfl⟩ := (step_eq_ok_iff (hcurrent s₁ hs₁)).1 hstep₁
    obtain ⟨-, rfl⟩ := (step_eq_ok_iff (hcurrent s₂ (hagree.counter ▸ hs₁))).1 hstep₂
    obtain ⟨hafter, hprinted⟩ := State.agree_fire hagree
    refine ⟨hafter, b.action.printed s₁, State.output_fire s₁ t b, ?_⟩
    rw [hprinted]
    exact State.output_fire s₂ t b

/-- A variable is copied in two states that differ elsewhere. -/
theorem halfCopied_footprint :
    Demo.Scenario.race.posed.program.block? ⟨2⟩ ⟨1⟩ =
      some ⟨⟨1⟩, .assign "t2" (.copy "x") ⟨2⟩⟩ ∧
    ∃ s₁ s₂, Demo.Scenario.race.posed.program.step Demo.halfCopied ⟨2⟩ = .ok s₁ ∧
      Demo.Scenario.race.posed.program.step Demo.halfCopiedElsewhere ⟨2⟩ = .ok s₂ ∧
      s₁.counters[(⟨1⟩ : ThreadId)]? = some (some ⟨0⟩) ∧ s₂.store["t1"]? = some 7 ∧
      s₁.get "t2" = s₂.get "t2" := by
  have hblock : Demo.Scenario.race.posed.program.block? ⟨2⟩ ⟨1⟩ =
      some ⟨⟨1⟩, .assign "t2" (.copy "x") ⟨2⟩⟩ := by
    decide +kernel
  have hat : Demo.halfCopied.counters[(⟨2⟩ : ThreadId)]? = some (some ⟨1⟩) := by decide +kernel
  have hat' : Demo.halfCopiedElsewhere.counters[(⟨2⟩ : ThreadId)]? = some (some ⟨1⟩) := by
    decide +kernel
  have hagree : Block.Agree ⟨⟨1⟩, .assign "t2" (.copy "x") ⟨2⟩⟩ ⟨2⟩ Demo.halfCopied
      Demo.halfCopiedElsewhere := by
    refine ⟨hat.trans hat'.symm, rfl, ?_⟩
    decide +kernel
  obtain ⟨hframe, hreads⟩ := footprint_exact _ ⟨2⟩ ⟨1⟩ _ hblock
  obtain ⟨hstep, hwithin⟩ := hframe Demo.halfCopied hat
  obtain ⟨hstep', hwithin'⟩ := hframe Demo.halfCopiedElsewhere hat'
  obtain ⟨s₁, hs₁⟩ := hstep.2 (by decide)
  obtain ⟨s₂, hs₂⟩ := hstep'.2 (by decide)
  refine ⟨hblock, s₁, s₂, hs₁, hs₂, ?_, ?_, ?_⟩
  · rw [(hwithin s₁ hs₁).counters ⟨1⟩ (by decide)]
    decide +kernel
  · rw [(hwithin' s₂ hs₂).store "t1" (by decide)]
    decide +kernel
  · exact (hreads _ _ s₁ s₂ hat hagree hs₁ hs₂).1.get "t2" (by decide)

end Program

end Flowchart
