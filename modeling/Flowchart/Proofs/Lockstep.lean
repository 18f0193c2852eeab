import Flowchart.Proofs.Simulation
import Mathlib.Data.List.Forall2

/-!
# Explorations in lockstep

Problems that simulate each other have the same verdicts, but not the same number of states: what is
one state here may be several there. If states are related one to one, and the turns from related
states are related in their order, then two explorations keep step. At every turn of the loop their
queues hold corresponding states, and they have met and examined equally many.

## Main definitions

* `Problem.Lockstep`: turns correspond one to one.
* `Exploration.InStep`: two explorations with corresponding states.

## Main results

* `Problem.Lockstep.exploreFrom`: explorations keep step as long as they go on.
* `Problem.Lockstep.inStep_of_ends`: the explorations at the end.
* `Problem.Lockstep.totalWithin_eq`: the numbers of states there are.
-/

namespace Flowchart

open Relator

theorem exists_of_mem_forall₂ {α β : Type} {S : α → β → Prop} {xs : List α} {ys : List β} {x : α}
    (h : List.Forall₂ S xs ys) (hx : x ∈ xs) : ∃ y ∈ ys, S x y := by
  induction h with
  | nil => cases hx
  | @cons a b _ _ hab _ ih =>
    rcases List.mem_cons.1 hx with rfl | hx
    · exact ⟨b, List.mem_cons_self, hab⟩
    · obtain ⟨y, hy, hxy⟩ := ih hx
      exact ⟨y, List.mem_cons_of_mem _ hy, hxy⟩

namespace Exploration

variable {R : State → State → Prop} {e e' : Exploration} {s s' n n' : State}

theorem visited_discover (s : State) (t : ThreadId) (hn : n ∉ e.links) :
    (discover s e (t, n)).visited = e.visited + 1 := by
  have hcontains : e.links.contains n = false := by
    rwa [Bool.eq_false_iff, ne_eq, Std.ExtTreeMap.contains_iff_mem]
  rw [discover_of_not_mem s t hn, visited, visited, Std.ExtTreeMap.size_insert, hcontains]
  rfl

/-- Queues and examined states correspond one by one, and a state is met by one exploration if and
only if its counterpart is met by the other. -/
structure InStep (R : State → State → Prop) (e e' : Exploration) : Prop where
  queue : List.Forall₂ R e.queue e'.queue
  examined : List.Forall₂ R e.examined e'.examined
  mem_links : ∀ s s', R s s' → (s ∈ e.links ↔ s' ∈ e'.links)
  visited : e.visited = e'.visited

namespace InStep

theorem explored_eq (h : e.InStep R e') : e.explored = e'.explored :=
  h.examined.length_eq

theorem begin (hR : BiUnique R) (hs : R s s') : (begin s).InStep R (begin s') := by
  refine ⟨.cons hs .nil, .nil, ?_, rfl⟩
  intro n n' hn
  have heq : s = n ↔ s' = n' := rel_eq hR hs hn
  simpa [Exploration.begin, Std.ExtTreeMap.mem_insert] using heq

theorem examine {rest rest' : List State} (h : e.InStep R e') (hs : R s s')
    (hrest : List.Forall₂ R rest rest') :
    (e.examine s rest).InStep R (e'.examine s' rest') :=
  ⟨hrest, .cons hs h.examined, h.mem_links, h.visited⟩

theorem discover (hR : BiUnique R) (h : e.InStep R e') (hn : R n n') (t t' : ThreadId) :
    (discover s e (t, n)).InStep R (discover s' e' (t', n')) := by
  by_cases hmem : n ∈ e.links
  · rw [discover_of_mem s t hmem, discover_of_mem s' t' ((h.mem_links n n' hn).1 hmem)]
    exact h
  · have hmem' : n' ∉ e'.links := fun hn' => hmem ((h.mem_links n n' hn).2 hn')
    refine ⟨?_, ?_, ?_, ?_⟩
    · rw [discover_of_not_mem s t hmem, discover_of_not_mem s' t' hmem']
      exact List.rel_append h.queue (.cons hn .nil)
    · rw [examined_discover, examined_discover]
      exact h.examined
    · intro x x' hx
      rw [mem_links_discover_iff, mem_links_discover_iff, h.mem_links x x' hx]
      exact or_congr_left (rel_eq hR hn hx)
    · rw [visited_discover s t hmem, visited_discover s' t' hmem', h.visited]

theorem foldl_discover (hR : BiUnique R) {turns turns' : List (ThreadId × State)}
    (h : e.InStep R e') (hturns : List.Forall₂ (fun turn turn' => R turn.2 turn'.2) turns turns') :
    (turns.foldl (Exploration.discover s) e).InStep R
      (turns'.foldl (Exploration.discover s') e') := by
  induction hturns generalizing e e' with
  | nil => exact h
  | cons hturn _ ih => exact ih (h.discover hR hturn _ _)

end InStep

end Exploration

/-- One turn of the loop goes on for both explorations or ends both. -/
inductive Progress.InStep (R : State → State → Prop) : Progress → Progress → Prop
  | more {e e' : Exploration} (h : e.InStep R e') : InStep R (.more e) (.more e')
  | done {r r' : Run} (h : r.exploration.InStep R r'.exploration) : InStep R (.done r) (.done r')

namespace Problem

variable {q q' : Problem} {g : ThreadId → ThreadId} {R : State → State → Prop}
  {e e' : Exploration} {r r' : Run} {limit : Option Nat}

/-- States are related one to one, and related states have related turns in the same order. -/
structure Lockstep (q q' : Problem) (g : ThreadId → ThreadId) (R : State → State → Prop) :
    Prop where
  initial : R q.initial q'.initial
  turns : ∀ s s', R s s' →
    List.Forall₂ (fun turn turn' => turn'.1 = g turn.1 ∧ R turn.2 turn'.2)
      (s.successors q.program) (s'.successors q'.program)
  mismatch : ∀ s s', R s s' → q.mismatch? s = q'.mismatch? s'
  unique : BiUnique R

namespace Lockstep

theorem simulation (h : q.Lockstep q' g R) : q.Simulation q' g R := by
  refine ⟨h.initial, ?_, h.mismatch⟩
  intro s s' t n hs hturn
  obtain ⟨⟨t', n'⟩, hturn', rfl, hrel⟩ := exists_of_mem_forall₂ (h.turns s s' hs) hturn
  exact ⟨n', hturn', hrel⟩

theorem symm (h : q.Lockstep q' id R) : q'.Lockstep q id (flip R) := by
  refine ⟨h.initial, ?_, fun s s' hs => (h.mismatch s' s hs).symm,
    fun _ _ _ hs hn => h.unique.2 hs hn, fun _ _ _ hs hn => h.unique.1 hs hn⟩
  intro s s' hs
  apply List.Forall₂.flip
  refine (h.turns s' s hs).imp ?_
  intro turn turn' hturn
  exact ⟨hturn.1.symm, hturn.2⟩

theorem progress (h : q.Lockstep q' g R) (he : e.InStep R e') (stop : Bool) :
    Progress.InStep R (q.progress stop e) (q'.progress stop e') := by
  cases stop with
  | true => exact .done he
  | false =>
    rw [progress_eq, progress_eq]
    rcases hq : e.queue with _ | ⟨s, rest⟩
    · have hq' : e'.queue = [] := by simpa [hq] using he.queue
      rw [hq']
      exact .done he
    · have hqueue := he.queue
      rw [hq] at hqueue
      obtain ⟨s', rest', hs, hrest, hq'⟩ := List.forall₂_cons_left_iff.1 hqueue
      have hexamine := he.examine hs hrest
      simp only [hq', Bool.false_eq_true, if_false, h.mismatch s s' hs]
      cases q'.mismatch? s' with
      | some m => exact .done hexamine
      | none =>
        refine .more (hexamine.foldl_discover h.unique ?_)
        exact (h.turns s s' hs).imp fun _ _ hturn => hturn.2

/-- Explorations in step go on in step and end together. -/
theorem exploreFrom (h : q.Lockstep q' g R) (he : e.InStep R e') (fuel : Nat)
    (limit : Option Nat) :
    Option.Rel (fun r r' => r.exploration.InStep R r'.exploration)
      (q.exploreFrom fuel limit e) (q'.exploreFrom fuel limit e') := by
  induction fuel generalizing limit e e' with
  | zero => exact .none
  | succ fuel ih =>
    rw [Problem.exploreFrom, Problem.exploreFrom]
    have hprogress := h.progress he (limit == some 0)
    revert hprogress
    generalize q.progress (limit == some 0) e = x
    generalize q'.progress (limit == some 0) e' = x'
    rintro (hmore | hdone)
    · exact ih hmore _
    · exact .some hdone

theorem inStep_of_ends (h : q.Lockstep q' g R) (hr : q.Ends limit r) (hr' : q'.Ends limit r') :
    r.exploration.InStep R r'.exploration := by
  obtain ⟨fuel, hrun⟩ := hr
  obtain ⟨fuel', hrun'⟩ := hr'
  have hrel := h.exploreFrom (.begin h.unique h.initial) (max fuel fuel') limit
  rw [exploreFrom_mono hrun (Nat.le_max_left _ _), exploreFrom_mono hrun' (Nat.le_max_right _ _)]
    at hrel
  cases hrel with
  | some hstep => exact hstep

theorem totalWithin_eq (h : q.Lockstep q' id R) (k : Nat) : q.totalWithin k = q'.totalWithin k := by
  apply Nat.le_antisymm
  · exact h.simulation.totalWithin_le (fun _ _ _ hs hn => h.unique.1 hs hn) k
  · exact h.symm.simulation.totalWithin_le (fun _ _ _ hs hn => h.unique.2 hs hn) k

end Lockstep

end Problem

end Flowchart
