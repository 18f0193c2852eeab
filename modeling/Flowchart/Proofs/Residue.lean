import Flowchart.Proofs.Conservation
import Flowchart.Proofs.Counterexample
import Flowchart.Proofs.Lockstep
import Mathlib.Data.Int.ModEq

/-!
# Residues

Literals and input numbers are cut to a word when they are stored. So one of them may be exchanged
for another one with the same residue, and nobody notices. For literals this is plain, because they
are never part of a state. But the input that is left is part of a state as it is. Two explorations
with different input numbers go through different states, which correspond to each other because
what is left of an input is determined by how much has been read.

## Main definitions

* `Program.replaceLiterals`: a program with other literals in its assignments.
* `Problem.restated`: a problem with other literals and other input.
* `State.Congruent`: states that differ in their input numbers only.

## Main results

* `State.successors_replaceLiterals`: literals with the same residues lead to the same states.
* `Problem.lockstep_restated`: explorations of a problem and of the restated one keep step.
* `Problem.residues_suffice`: what exploration reports about the two.
-/

namespace Flowchart

theorem Value.ofLiteral_eq_iff {m n : UInt64} :
    ofLiteral m = ofLiteral n ↔ m.toNat ≡ n.toNat [MOD UInt32.size] := by
  have hm : (ofLiteral m).toNat = m.toNat % UInt32.size := UInt64.toNat_toUInt32 m
  have hn : (ofLiteral n).toNat = n.toNat % UInt32.size := UInt64.toNat_toUInt32 n
  rw [← UInt32.toNat_inj, hm, hn, Nat.ModEq]

theorem Value.ofInput_eq_iff {i j : Int64} :
    ofInput i = ofInput j ↔ i.toInt ≡ j.toInt [ZMOD UInt32.size] := by
  rw [Int.ModEq, ← toNat_ofInput, ← toNat_ofInput, Int.natCast_inj, UInt32.toNat_inj]

/-! ### Other literals -/

/-- The action with another literal, if it assigns one. -/
def Action.replaceLiteral (f : UInt64 → UInt64) : Action → Action
  | assign target (.literal n) next => assign target (.literal (f n)) next
  | a => a

namespace Action

variable {f : UInt64 → UInt64}

theorem isStart_replaceLiteral (a : Action) : (a.replaceLiteral f).isStart = a.isStart := by
  cases a with
  | assign target operand next => cases operand <;> rfl
  | _ => rfl

theorem isInput_replaceLiteral (a : Action) : (a.replaceLiteral f).isInput = a.isInput := by
  cases a with
  | assign target operand next => cases operand <;> rfl
  | _ => rfl

theorem next?_replaceLiteral (a : Action) (s : State) (here : BlockId) :
    (a.replaceLiteral f).next? s here = a.next? s here := by
  cases a with
  | assign target operand next => cases operand <;> rfl
  | _ => rfl

theorem effect_replaceLiteral (hf : ∀ n, (f n).toNat ≡ n.toNat [MOD UInt32.size]) (a : Action)
    (s : State) : (a.replaceLiteral f).effect s = a.effect s := by
  cases a with
  | assign target operand next =>
    cases operand with
    | literal n =>
      show s.set target (.ofLiteral (f n)) = s.set target (.ofLiteral n)
      rw [Value.ofLiteral_eq_iff.2 (hf n)]
    | copy source => rfl
  | _ => rfl

end Action

theorem startsAt_replaceLiteral (nodes : Std.ExtTreeMap BlockId Action)
    (f : BlockId → UInt64 → UInt64) (i : BlockId) :
    startsAt (nodes.map fun j (a : Action) => a.replaceLiteral (f j)) i = startsAt nodes i := by
  rw [startsAt, startsAt, Std.ExtTreeMap.getElem?_map]
  cases nodes[i]? with
  | none => rfl
  | some a => exact a.isStart_replaceLiteral

/-- The thread with other literals, each given by its block and by the literal it replaces. -/
def Thread.replaceLiterals (t : Thread) (f : BlockId → UInt64 → UInt64) : Thread :=
  { t with
    nodes := t.nodes.map fun i a => a.replaceLiteral (f i)
    start_unique := by
      intro i j hi hj
      rw [startsAt_replaceLiteral] at hi hj
      exact t.start_unique i j hi hj }

theorem Thread.start?_replaceLiterals (t : Thread) (f : BlockId → UInt64 → UInt64) :
    (t.replaceLiterals f).start? = t.start? := by
  ext i
  rw [start?_eq_some_iff, start?_eq_some_iff, replaceLiterals, startsAt_replaceLiteral]

namespace Program

variable {p : Program} {f : ThreadId → BlockId → UInt64 → UInt64}

/-- The program with other literals, each given by its place and by the literal it replaces. -/
def replaceLiterals (p : Program) (f : ThreadId → BlockId → UInt64 → UInt64) : Program :=
  { p with
    threads := p.threads.map fun i t => t.replaceLiterals (f i)
    filed := by
      intro i u hu
      rw [Std.ExtTreeMap.getElem?_map, Option.map_eq_some_iff] at hu
      obtain ⟨t, ht, rfl⟩ := hu
      exact p.filed i t ht }

theorem threadList_replaceLiterals :
    (p.replaceLiterals f).threadList = p.threadList.map fun t => t.replaceLiterals (f t.id) := by
  rw [threadList_eq_map_toList, threadList_eq_map_toList, replaceLiterals,
    Std.ExtTreeMap.toList_map, List.map_map, List.map_map]
  apply List.map_congr_left
  intro entry hentry
  have hid := p.filed _ _ (Std.ExtTreeMap.mem_toList_iff_getElem?_eq_some.1 hentry)
  simp [hid]

theorem block?_replaceLiterals (t : ThreadId) (i : BlockId) :
    (p.replaceLiterals f).block? t i =
      (p.block? t i).map fun b => ⟨b.id, b.action.replaceLiteral (f t b.id)⟩ := by
  rw [block?, block?, thread?, thread?, replaceLiterals, Std.ExtTreeMap.getElem?_map]
  cases p.threads[t]? with
  | none => rfl
  | some u =>
    simp only [Option.map_some, Option.bind_some, Thread.block?, Thread.replaceLiterals,
      Std.ExtTreeMap.getElem?_map, Option.map_map]
    rfl

theorem ready?_replaceLiterals (input : List Int64) (t : ThreadId) (counter : Option BlockId) :
    (p.replaceLiterals f).ready? input t counter =
      (p.ready? input t counter).map fun b => ⟨b.id, b.action.replaceLiteral (f t b.id)⟩ := by
  cases counter with
  | none => rfl
  | some i =>
    rw [ready?, ready?, Option.bind_some, Option.bind_some, block?_replaceLiterals,
      Option.filter_map]
    simp only [Function.comp_def, Action.isInput_replaceLiteral]

end Program

/-- Other literals with the same residues lead to the same states. -/
theorem State.successors_replaceLiterals {p : Program} {f : ThreadId → BlockId → UInt64 → UInt64}
    (hf : ∀ t i n, (f t i n).toNat ≡ n.toNat [MOD UInt32.size]) (s : State) :
    s.successors (p.replaceLiterals f) = s.successors p := by
  have hfire : ∀ (t : ThreadId) (b : Block),
      s.fire t ⟨b.id, b.action.replaceLiteral (f t b.id)⟩ = s.fire t b := by
    intro t b
    rw [fire, fire, Action.effect_replaceLiteral (hf t b.id), Action.next?_replaceLiteral]
  rw [successors, successors, ready, ready, Program.readyAmong, Program.readyAmong,
    List.map_filterMap, List.map_filterMap]
  apply List.filterMap_congr
  rintro ⟨t, counter⟩ -
  simp only [Program.ready?_replaceLiterals, Option.map_map, Function.comp_def, hfire]

/-! ### Other input -/

/-- The states agree but for the numbers that are left of the two inputs, and equally many of those
have been read. -/
structure State.Congruent (whole whole' : List Int64) (s s' : State) : Prop where
  counters : s.counters = s'.counters
  store : s.store = s'.store
  input : ∃ m, s.input = whole.drop m ∧ s'.input = whole'.drop m
  output : s.output = s'.output
  depth : s.depth = s'.depth

namespace State.Congruent

variable {whole whole' : List Int64} {s s' n : State}

theorem symm (h : s.Congruent whole whole' s') : s'.Congruent whole' whole s := by
  obtain ⟨m, hm, hm'⟩ := h.input
  exact ⟨h.counters.symm, h.store.symm, ⟨m, hm', hm⟩, h.output.symm, h.depth.symm⟩

/-- What is left of an input is known by its length, so a state has one counterpart only. -/
theorem left_unique (hlen : whole.length = whole'.length) (hs : s.Congruent whole whole' s')
    (hn : n.Congruent whole whole' s') : s = n := by
  obtain ⟨k, hk, hk'⟩ := hs.input
  obtain ⟨m, hm, hm'⟩ := hn.input
  have hdrop : whole'.drop k = whole'.drop m := hk'.symm.trans hm'
  have hread : min k whole.length = min m whole.length := by
    rw [hlen]
    exact List.drop_eq_drop_iff.1 hdrop
  apply State.ext
  · exact hs.counters.trans hn.counters.symm
  · exact hs.store.trans hn.store.symm
  · rw [hk, hm]
    exact List.drop_eq_drop_iff.2 hread
  · exact hs.output.trans hn.output.symm
  · exact hs.depth.trans hn.depth.symm

section Step

variable (h : s.Congruent whole whole' s')
  (hwhole : List.Forall₂ (fun i j => i.toInt ≡ j.toInt [ZMOD UInt32.size]) whole whole')

include h

theorem get_eq (name : String) : s.get name = s'.get name := by
  rw [State.get, State.get, h.store]

include hwhole

theorem map_ofInput_eq : s.input.map Value.ofInput = s'.input.map Value.ofInput := by
  obtain ⟨m, hm, hm'⟩ := h.input
  rw [hm, hm', ← List.forall₂_eq_eq_eq, List.forall₂_map_left_iff, List.forall₂_map_right_iff]
  exact (List.forall₂_drop m hwhole).imp fun _ _ hij => Value.ofInput_eq_iff.2 hij

theorem fire (t : ThreadId) (b : Block) :
    (s.fire t b).Congruent whole whole' (s'.fire t b) := by
  have hget : ∀ name ∈ b.action.names, s.get name = s'.get name := fun name _ => h.get_eq name
  have hin : b.action.isInput = true → s.input.map Value.ofInput = s'.input.map Value.ofInput :=
    fun _ => h.map_ofInput_eq hwhole
  refine ⟨?_, ?_, ?_, ?_, ?_⟩
  · show s.counters.insert t _ = s'.counters.insert t _
    rw [h.counters, Action.next?_congr hget hin]
  · rw [store_fire, store_fire, h.store, Action.change?_congr hget hin]
  · obtain ⟨m, hm, hm'⟩ := h.input
    rw [input_fire, input_fire, hm, hm']
    by_cases hread : b.action.isInput = true
    · rw [if_pos hread, if_pos hread, List.tail_drop, List.tail_drop]
      exact ⟨m + 1, rfl, rfl⟩
    · rw [if_neg hread, if_neg hread]
      exact ⟨m, rfl, rfl⟩
  · rw [output_fire, output_fire, h.output, Action.printed_congr hget]
  · rw [depth_fire, depth_fire, h.depth]

theorem ready_eq (p : Program) : s.ready p = s'.ready p := by
  have hempty : s.input.isEmpty = s'.input.isEmpty := by
    rw [← List.isEmpty_map, h.map_ofInput_eq hwhole, List.isEmpty_map]
  have hready : p.ready? s.input = p.ready? s'.input := by
    funext t counter
    rw [Program.ready?, Program.ready?, hempty]
  rw [ready, ready, Program.readyAmong, Program.readyAmong, hready, h.counters]

theorem successors (p : Program) :
    List.Forall₂ (fun turn turn' => turn'.1 = turn.1 ∧ turn.2.Congruent whole whole' turn'.2)
      (s.successors p) (s'.successors p) := by
  rw [State.successors, State.successors, h.ready_eq hwhole, List.forall₂_map_left_iff,
    List.forall₂_map_right_iff, List.forall₂_same]
  rintro ⟨t, b⟩ -
  exact ⟨rfl, h.fire hwhole t b⟩

end Step

end State.Congruent

/-! ### Both -/

/-- The problem with other literals in its program and with another input. -/
def Problem.restated (q : Problem) (f : ThreadId → BlockId → UInt64 → UInt64)
    (input : List Int64) : Problem :=
  { q with program := q.program.replaceLiterals f, input }

namespace Problem

variable {q : Problem} {f : ThreadId → BlockId → UInt64 → UInt64} {input : List Int64}

theorem congruent_initial (q : Problem) (f : ThreadId → BlockId → UInt64 → UInt64)
    (input : List Int64) :
    q.initial.Congruent q.input input (q.restated f input).initial := by
  refine ⟨?_, rfl, ⟨0, rfl, rfl⟩, rfl, rfl⟩
  simp only [initial, restated, Program.threadList_replaceLiterals, List.map_map,
    Function.comp_def, Thread.start?_replaceLiterals]
  rfl

theorem lockstep_restated (hf : ∀ t i n, (f t i n).toNat ≡ n.toNat [MOD UInt32.size])
    (hinput : List.Forall₂ (fun i j => i.toInt ≡ j.toInt [ZMOD UInt32.size]) q.input input) :
    q.Lockstep (q.restated f input) id (State.Congruent q.input input) := by
  refine ⟨q.congruent_initial f input, ?_, ?_, ?_, ?_⟩
  · intro s s' h
    show List.Forall₂ _ _ (s'.successors (q.program.replaceLiterals f))
    rw [State.successors_replaceLiterals hf]
    exact h.successors hinput q.program
  · intro s s' h
    exact mismatch?_congr rfl h.output h.counters
  · intro s n s' hs hn
    exact hs.left_unique hinput.length_eq hn
  · intro s s' n' hs hn
    exact hs.symm.left_unique hinput.length_eq.symm hn.symm

/-- **Only residues matter.** Replace the literals of a program by others with the same residues,
and the input by as many numbers with the same residues. An exploration that nobody stops ends for
one problem if and only if it ends for the other. The verdicts are of one kind, and counterexamples
have the same schedule, the same reason and the same output. As many states were met and examined,
and there are as many states and schedules up to each length. -/
theorem residues_suffice (q : Problem) (f : ThreadId → BlockId → UInt64 → UInt64)
    (input : List Int64) (hf : ∀ t i n, (f t i n).toNat ≡ n.toNat [MOD UInt32.size])
    (hinput : List.Forall₂ (fun i j => i.toInt ≡ j.toInt [ZMOD UInt32.size]) q.input input) :
    ((∃ r, q.Ends none r) ↔ ∃ r, (q.restated f input).Ends none r) ∧
    (∀ r r', q.Ends none r → (q.restated f input).Ends none r' →
      r.verdict.Matches (fun c c' => c.schedule = c'.schedule ∧ c.mismatch = c'.mismatch ∧
        c.state.output = c'.state.output) r'.verdict ∧
      r.exploration.visited = r'.exploration.visited ∧
      r.exploration.explored = r'.exploration.explored) ∧
    ∀ k, q.totalWithin k = (q.restated f input).totalWithin k ∧
      q.schedulesWithin k = (q.restated f input).schedulesWithin k := by
  have h := lockstep_restated hf hinput
  have hforth := h.simulation
  have hback := h.symm.simulation
  refine ⟨exists_ends_iff_of_simulation hforth hback, ?_, ?_⟩
  · intro r r' hr hr'
    have hstep := h.inStep_of_ends hr hr'
    refine ⟨(hr.matches_of_simulation hforth hback hr').mono ?_, hstep.visited, hstep.explored_eq⟩
    rintro c c' ⟨hschedule, hmismatch, s, s', hrel, hstate, hstate'⟩
    rw [hstate, hstate']
    exact ⟨hschedule, hmismatch, hrel.output⟩
  · intro k
    exact ⟨h.totalWithin_eq k, schedulesWithin_eq_of_simulation hforth hback k⟩

/-- The literal of the reader is raised, and its input lowered, by the number of words there are. -/
theorem reader_restated_refuted :
    (∀ n : UInt64, (n + 4294967296).toNat ≡ n.toNat [MOD UInt32.size]) ∧
    (-4294967291 : Int64).toInt ≡ (5 : Int64).toInt [ZMOD UInt32.size] ∧
    ∃ r c, (Demo.Scenario.reader.posed.restated (fun _ _ n => n + 4294967296)
        [-4294967291]).Ends none r ∧ r.verdict = .refuted c ∧ c.schedule = [⟨2⟩, ⟨2⟩, ⟨2⟩] := by
  have hf : ∀ n : UInt64, (n + 4294967296).toNat ≡ n.toNat [MOD UInt32.size] := by
    intro n
    rw [Nat.ModEq, UInt64.toNat_add, UInt32.size]
    show (n.toNat + 4294967296) % 18446744073709551616 % 4294967296 = _
    omega
  have hi : (-4294967291 : Int64).toInt ≡ (5 : Int64).toInt [ZMOD UInt32.size] := by decide
  have hrun : (Demo.Scenario.reader.posed.explore 100 none).map (fun r =>
      r.verdict.counterexample?.map (·.schedule)) = some (some [⟨2⟩, ⟨2⟩, ⟨2⟩]) := by
    decide +kernel
  obtain ⟨r, c, hr, hc, hschedule⟩ := exists_refuted_of_explore hrun
  obtain ⟨hends, hsame, -⟩ := residues_suffice Demo.Scenario.reader.posed
    (fun _ _ n => n + 4294967296) [-4294967291] (fun _ _ => hf) (.cons hi.symm .nil)
  obtain ⟨r', hr'⟩ := hends.1 ⟨r, hr⟩
  obtain ⟨c', hc', related⟩ := (hsame r r' hr hr').1.exists_of_refuted hc
  exact ⟨hf, hi, r', c', hr', hc', related.1.symm.trans hschedule⟩

end Problem

end Flowchart
