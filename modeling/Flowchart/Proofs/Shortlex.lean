import Flowchart.Id
import Mathlib.Data.FinEnum
import Mathlib.Data.List.Shortlex
import Mathlib.Data.Set.Finite.List

/-!
# The order of schedules

Schedules are compared by their length first, and schedules of one length like words over the
numbers of the threads. Exploration meets states in this order of the schedules by which it meets
them, so all that is said about its order goes back to a few facts about appending turns.

* `Schedule.Before`: the strict order.
* `Schedule.NoLater`: equal or before.
* `Schedule.finite_length_le`: there are finitely many schedules up to a length.
-/

namespace Flowchart

namespace ThreadId

instance : LT ThreadId :=
  ⟨fun a b => a.val < b.val⟩

theorem compare_eq_lt_iff {a b : ThreadId} : compare a b = .lt ↔ a < b := by
  change compare a.val b.val = .lt ↔ a.val < b.val
  exact Std.compare_eq_lt

protected theorem lt_trans {a b c : ThreadId} (hab : a < b) (hbc : b < c) : a < c :=
  UInt32.lt_trans hab hbc

instance : Std.Irrefl (· < · : ThreadId → ThreadId → Prop) :=
  ⟨fun a => UInt32.lt_irrefl a.val⟩

instance : Std.Asymm (· < · : ThreadId → ThreadId → Prop) :=
  ⟨fun _ _ => UInt32.lt_asymm⟩

instance : Finite ThreadId :=
  Finite.of_injective val fun a b h => by
    cases a
    cases b
    exact congrArg mk h

end ThreadId

namespace Schedule

/-- The schedule `v` comes before `w`: it is shorter, or as long and smaller as a word. -/
def Before (v w : List ThreadId) : Prop :=
  List.Shortlex (· < ·) v w

/-- The schedule `v` is `w` or comes before it. -/
def NoLater (v w : List ThreadId) : Prop :=
  v = w ∨ Before v w

variable {u v w : List ThreadId} {t t' : ThreadId}

theorem Before.length_le (h : Before v w) : v.length ≤ w.length := by
  rcases List.shortlex_def.1 h with hlt | ⟨heq, -⟩
  · omega
  · omega

theorem NoLater.length_le (h : NoLater v w) : v.length ≤ w.length := by
  rcases h with rfl | h
  · exact le_rfl
  · exact h.length_le

theorem Before.irrefl (w : List ThreadId) : ¬ Before w w := by
  intro h
  exact (List.Shortlex.asymm (r := (· < ·))).asymm w w h h

theorem Before.trans (huv : Before u v) (hvw : Before v w) : Before u w := by
  rcases List.shortlex_def.1 huv with hlt | ⟨heq, hlex⟩
  · exact .of_length_lt (Nat.lt_of_lt_of_le hlt hvw.length_le)
  · rcases List.shortlex_def.1 hvw with hlt' | ⟨heq', hlex'⟩
    · exact .of_length_lt (by omega)
    · exact .of_lex (by omega) (List.lex_trans ThreadId.lt_trans hlex hlex')

theorem NoLater.trans_before (huv : NoLater u v) (hvw : Before v w) : Before u w := by
  rcases huv with rfl | huv
  · exact hvw
  · exact huv.trans hvw

theorem Before.trans_noLater (huv : Before u v) (hvw : NoLater v w) : Before u w := by
  rcases hvw with rfl | hvw
  · exact huv
  · exact huv.trans hvw

theorem NoLater.trans (huv : NoLater u v) (hvw : NoLater v w) : NoLater u w := by
  rcases hvw with rfl | hvw
  · exact huv
  · exact .inr (huv.trans_before hvw)

theorem NoLater.antisymm (hvw : NoLater v w) (hwv : NoLater w v) : v = w := by
  rcases hvw with rfl | hvw
  · rfl
  · exact absurd (hvw.trans_noLater hwv) (Before.irrefl v)

/-- A schedule comes before the one with another turn. -/
theorem before_snoc (w : List ThreadId) (t : ThreadId) : Before w (w ++ [t]) :=
  .of_length_lt (by simp)

/-- Words of one length keep their order whatever is appended to them. -/
theorem lex_append {x y : List ThreadId} (h : List.Lex (· < ·) v w) (hlen : v.length = w.length) :
    List.Lex (· < ·) (v ++ x) (w ++ y) := by
  induction h with
  | nil => simp at hlen
  | rel hlt => exact .rel hlt
  | cons _ ih => exact .cons (ih (by simpa using hlen))

/-- Schedules keep their order when each is given another turn, of whatever thread. -/
theorem Before.snoc (h : Before v w) (t t' : ThreadId) : Before (v ++ [t]) (w ++ [t']) := by
  rcases List.shortlex_def.1 h with hlt | ⟨heq, hlex⟩
  · exact .of_length_lt (by simpa using hlt)
  · exact .of_lex (by simpa using heq) (lex_append hlex heq)

theorem NoLater.snoc (h : NoLater v w) (t : ThreadId) : NoLater (v ++ [t]) (w ++ [t]) := by
  rcases h with rfl | h
  · exact .inl rfl
  · exact .inr (h.snoc t t)

/-- After one and the same schedule the turn of a smaller thread comes first. -/
theorem before_snoc_of_lt (w : List ThreadId) (h : t < t') : Before (w ++ [t]) (w ++ [t']) := by
  have hturn : Before [t] [t'] := (List.shortlex_singleton_iff t t').2 h
  exact List.Shortlex.append_left hturn w

theorem lex_map {g : ThreadId → ThreadId} (h : List.Lex (· < ·) v w)
    (hg : ∀ i ∈ v, ∀ j ∈ w, i < j → g i < g j) : List.Lex (· < ·) (v.map g) (w.map g) := by
  induction h with
  | nil => exact .nil
  | rel hlt => exact .rel (hg _ List.mem_cons_self _ List.mem_cons_self hlt)
  | cons _ ih =>
    refine .cons (ih ?_)
    intro i hi j hj
    exact hg i (List.mem_cons_of_mem _ hi) j (List.mem_cons_of_mem _ hj)

/-- Schedules keep their order when threads are exchanged for others in the same order. -/
theorem NoLater.map {g : ThreadId → ThreadId} (h : NoLater v w)
    (hg : ∀ i ∈ v, ∀ j ∈ w, i < j → g i < g j) : NoLater (v.map g) (w.map g) := by
  rcases h with rfl | h
  · exact .inl rfl
  · right
    rcases List.shortlex_def.1 h with hlt | ⟨heq, hlex⟩
    · exact .of_length_lt (by simpa using hlt)
    · exact .of_lex (by simpa using heq) (lex_map hlex hg)

theorem finite_length_le (n : Nat) : {w : List ThreadId | w.length ≤ n}.Finite :=
  List.finite_length_le ThreadId n

end Schedule

end Flowchart
