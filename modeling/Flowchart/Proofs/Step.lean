import Flowchart.Proofs.Schedule

/-!
# What a step touches

A step of a thread moves the counter of that thread. Apart from this it changes one variable at
most, takes one number off the input if its block is an INPUT, and appends one value to the output
if its block is a PRINT. What it does there depends on the variables that the block mentions and,
for an INPUT, on the input.

## Main definitions

* `Action.change?`, `Action.printed`: the variable that an action changes and what it prints.
* `Action.Alike`: two states that an action cannot tell apart.
* `Action.Independent`: two actions neither of which touches what the other one depends on.

## Main results

* `Action.change?_congr`, `Action.next?_congr`: what an action depends on.
* `State.store_fire`, `State.input_fire`, `State.output_fire`: a step, field by field.
* `State.ready_fire`: an independent step of another thread keeps a thread able to run.
* `State.fire_comm`: steps of different threads with independent actions can be exchanged.
-/

namespace Flowchart

namespace Action

variable {a b : Action} {s s' : State} {here i : BlockId} {name : String}

/-- Whether the action prints. -/
def isPrint : Action → Bool
  | print .. => true
  | _ => false

/-- The variable that an action changes, with its new value. -/
def change? (s : State) : Action → Option (String × Value)
  | assign target operand _ => some (target, operand.value s)
  | input var _ => s.input.head?.map fun i => (var, .ofInput i)
  | _ => none

/-- The values that an action prints. -/
def printed (s : State) : Action → List Value
  | print var _ => [s.get var]
  | _ => []

theorem store_effect (a : Action) (s : State) :
    (a.effect s).store = (a.change? s).elim s.store fun c => s.store.insert c.1 c.2 := by
  cases a with
  | input var next => cases hin : s.input <;> simp [effect, change?, hin, State.set]
  | _ => rfl

theorem input_effect (a : Action) (s : State) :
    (a.effect s).input = if a.isInput then s.input.tail else s.input := by
  cases a with
  | input var next => cases hin : s.input <;> simp [effect, isInput, hin]
  | _ => rfl

theorem output_effect (a : Action) (s : State) :
    (a.effect s).output = s.output ++ a.printed s := by
  cases a with
  | input var next => cases hin : s.input <;> simp [effect, printed, hin, State.set]
  | print var next => rfl
  | _ => exact (List.append_nil s.output).symm

theorem written?_of_change? {c : String × Value} (h : a.change? s = some c) :
    a.written? = some c.1 := by
  cases a with
  | assign target operand next =>
    cases h
    rfl
  | input var next =>
    obtain ⟨i, -, rfl⟩ := Option.map_eq_some_iff.1 h
    rfl
  | _ => cases h

theorem mem_names_of_written? (h : a.written? = some name) : name ∈ a.names := by
  cases a with
  | assign target operand next =>
    cases h
    exact List.mem_cons_self
  | input var next =>
    cases h
    exact List.mem_cons_self
  | _ => cases h

theorem printed_eq_nil (h : a.isPrint = false) : a.printed s = [] := by
  cases a with
  | print var next => cases h
  | _ => rfl

/-- A thread goes on to a target of its block, unless it stays where it is. -/
theorem mem_targets_of_next? (h : a.next? s here = some i) : i ∈ a.targets ∨ i = here := by
  cases a with
  | input var next =>
    simp only [next?, Option.some.injEq] at h
    split at h
    · exact .inr h.symm
    · exact .inl (by simp [targets, h])
  | branch condition onTrue onFalse =>
    simp only [next?, Option.some.injEq] at h
    split at h
    · exact .inl (by simp [targets, h])
    · exact .inl (by simp [targets, h])
  | _ => simp_all [next?, targets]

/-! ### What an action depends on -/

section Congr

variable (hget : ∀ name ∈ a.names, s.get name = s'.get name)
  (hin : a.isInput = true → s.input.map Value.ofInput = s'.input.map Value.ofInput)

include hget

theorem printed_congr : a.printed s = a.printed s' := by
  cases a with
  | print var next => simp [printed, hget var (by simp [names])]
  | _ => rfl

include hin

/-- Of the input an action sees the words that numbers are stored as, not the numbers. -/
theorem change?_congr : a.change? s = a.change? s' := by
  cases a with
  | assign target operand next =>
    cases operand with
    | literal n => rfl
    | copy source => simp [change?, Operand.value, hget source (by simp [names, Operand.names])]
  | input var next =>
    have hhead : s.input.head?.map Value.ofInput = s'.input.head?.map Value.ofInput := by
      rw [← List.head?_map, hin rfl, List.head?_map]
    show s.input.head?.map (Prod.mk var ∘ Value.ofInput) =
      s'.input.head?.map (Prod.mk var ∘ Value.ofInput)
    rw [← Option.map_map, hhead, Option.map_map]
  | _ => rfl

theorem next?_congr (here : BlockId) : a.next? s here = a.next? s' here := by
  cases a with
  | input var next =>
    have hempty : s.input.isEmpty = s'.input.isEmpty := by
      rw [← List.isEmpty_map, hin rfl, List.isEmpty_map]
    simp [next?, hempty]
  | branch condition onTrue onFalse => simp [next?, hget condition.var (by simp [names])]
  | _ => rfl

end Congr

/-- The variables that the action mentions have the same values in both states, and the input is the
same if the action waits for it. -/
structure Alike (a : Action) (s s' : State) : Prop where
  get_eq : ∀ name ∈ a.names, s.get name = s'.get name
  input_eq : a.isInput = true → s.input = s'.input

namespace Alike

theorem map_ofInput_eq (h : a.Alike s s') (hin : a.isInput = true) :
    s.input.map Value.ofInput = s'.input.map Value.ofInput := by
  rw [h.input_eq hin]

theorem change?_eq (h : a.Alike s s') : a.change? s = a.change? s' :=
  change?_congr h.get_eq h.map_ofInput_eq

theorem printed_eq (h : a.Alike s s') : a.printed s = a.printed s' :=
  printed_congr h.get_eq

theorem next?_eq (h : a.Alike s s') (here : BlockId) : a.next? s here = a.next? s' here :=
  next?_congr h.get_eq h.map_ofInput_eq here

end Alike

/-- Neither action changes a variable that the other one mentions, at most one of the two prints,
and at most one of them waits for input. -/
structure Independent (a b : Action) : Prop where
  left : ∀ name, a.written? = some name → name ∉ b.names
  right : ∀ name, b.written? = some name → name ∉ a.names
  print : a.isPrint = true → b.isPrint = false
  input : a.isInput = true → b.isInput = false

theorem Independent.symm (h : a.Independent b) : b.Independent a where
  left := h.right
  right := h.left
  print hb := by
    by_contra ha
    have := h.print (by simpa using ha)
    simp_all
  input hb := by
    by_contra ha
    have := h.input (by simpa using ha)
    simp_all

end Action

namespace State

variable {p : Program} {s m n : State} {t u : ThreadId} {b c : Block} {name : String}

theorem store_fire (s : State) (t : ThreadId) (b : Block) :
    (s.fire t b).store =
      (b.action.change? s).elim s.store fun c => s.store.insert c.1 c.2 :=
  b.action.store_effect s

theorem input_fire (s : State) (t : ThreadId) (b : Block) :
    (s.fire t b).input = if b.action.isInput then s.input.tail else s.input :=
  b.action.input_effect s

theorem output_fire (s : State) (t : ThreadId) (b : Block) :
    (s.fire t b).output = s.output ++ b.action.printed s :=
  b.action.output_effect s

/-- A step leaves alone the variables that its block does not write, and gives none of them a
value. -/
theorem getElem?_store_fire_of_ne (s : State) (t : ThreadId)
    (h : b.action.written? ≠ some name) : (s.fire t b).store[name]? = s.store[name]? := by
  rw [store_fire]
  cases hc : b.action.change? s with
  | none => rfl
  | some change =>
    have hne : change.1 ≠ name := by
      rintro rfl
      exact h (Action.written?_of_change? hc)
    simp [Std.ExtTreeMap.getElem?_insert, hne]

theorem get_fire_of_ne (t : ThreadId) (h : b.action.written? ≠ some name) :
    (s.fire t b).get name = s.get name := by
  rw [get, get, Std.ExtTreeMap.getD_eq_getD_getElem?, Std.ExtTreeMap.getD_eq_getD_getElem?,
    getElem?_store_fire_of_ne s t h]

/-- A step is not noticed by an independent action. -/
theorem alike_fire (s : State) (t : ThreadId) (h : b.action.Independent c.action) :
    c.action.Alike (s.fire t b) s where
  get_eq name hname := get_fire_of_ne t fun hwritten => h.left name hwritten hname
  input_eq hin := by
    have hother : b.action.isInput = false := h.symm.input hin
    simp [input_fire, hother]

/-- A thread that can run is still able to run the same block after an independent step of another
one. -/
theorem ready_fire (htu : t ≠ u) (hu : (u, c) ∈ s.ready p) (h : b.action.Independent c.action) :
    (u, c) ∈ (s.fire t b).ready p := by
  obtain ⟨counter, hcounter, hready⟩ := mem_ready_iff.1 hu
  obtain ⟨j, rfl, hc, hwait⟩ := Program.ready?_eq_some_iff.1 hready
  refine mem_ready_iff.2 ⟨some j, ?_, Program.ready?_eq_some_iff.2 ⟨j, rfl, hc, ?_⟩⟩
  · rw [getElem?_counters_fire, if_neg htu]
    exact hcounter
  · -- If the block is an INPUT, the other one is not and leaves the input as it was.
    by_cases hin : c.action.isInput = true
    · have hinput : (s.fire t b).input = s.input := (alike_fire s t h).input_eq hin
      exact hinput ▸ hwait
    · exact .inl (by simpa using hin)

/-- Steps of different threads can be exchanged if their actions are independent. -/
theorem fire_comm (s : State) (htu : t ≠ u) (h : b.action.Independent c.action) :
    (s.fire t b).fire u c = (s.fire u c).fire t b := by
  have hc := alike_fire s t h
  have hb := alike_fire s u h.symm
  apply State.ext
  · apply Std.ExtTreeMap.ext_getElem?
    intro v
    rw [getElem?_counters_fire, getElem?_counters_fire, getElem?_counters_fire,
      getElem?_counters_fire, hc.next?_eq, hb.next?_eq]
    by_cases hu : u = v
    · have ht : t ≠ v := hu ▸ htu
      simp [hu, ht]
    · simp [hu]
  · rw [store_fire, store_fire, store_fire, store_fire, hc.change?_eq, hb.change?_eq]
    cases hcb : b.action.change? s with
    | none => rfl
    | some x =>
      cases hcc : c.action.change? s with
      | none => rfl
      | some y =>
        -- Each writes a variable that it mentions itself, so the two variables differ.
        have hne : x.1 ≠ y.1 := by
          intro heq
          have hy := Action.mem_names_of_written? (Action.written?_of_change? hcc)
          exact h.left x.1 (Action.written?_of_change? hcb) (heq ▸ hy)
        apply Std.ExtTreeMap.ext_getElem?
        intro v
        simp only [Option.elim_some, Std.ExtTreeMap.getElem?_insert, Std.compare_eq_iff_eq]
        by_cases hx : x.1 = v
        · have hy : y.1 ≠ v := fun hy => hne (hx.trans hy.symm)
          simp [hx, hy]
        · simp [hx]
  · simp only [input_fire]
    by_cases hin : b.action.isInput = true
    · simp [hin, h.input hin]
    · simp [hin]
  · rw [output_fire, output_fire, output_fire, output_fire, hc.printed_eq, hb.printed_eq]
    by_cases hprint : b.action.isPrint = true
    · simp [Action.printed_eq_nil (h.print hprint)]
    · simp [Action.printed_eq_nil (by simpa using hprint)]
  · rfl

end State

end Flowchart
